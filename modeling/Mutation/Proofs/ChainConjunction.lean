import Mutation.Tree.Expr

/-!
# The conjunction of a chain

A chained comparison `a < b <= c` means `a < b && b <= c`: the comparisons of adjacent operands,
conjoined from the left. The conjunction is built in one pass over the operators. The operator at
position `i` compares the operands at `i` and `i + 1`, the conjunction so far becomes the left side
of a new one with this comparison, and the pass ends at an operator that lacks an operand
(`Chain.gather`).

What it comes to is said by position (`Chain.Compares`, `Chain.Conjoins`), for any numbers of
operands and operators (`Chain.rebuild_means`).
-/

namespace Mutation.Chain

/-- The conjunction so far with one more comparison. -/
def extend (sofar : Option Expr) (comparison : Expr) : Option Expr :=
  match sofar with
  | none => some comparison
  | some left => some (conjoin left comparison)

/-- A pass over operators, the first of which stands at position `i`. -/
def gather (operands : List Expr) : Nat → List BinaryOp → Option Expr → Option Expr
  | _, [], sofar => sofar
  | i, op :: ops, sofar =>
    match operands[i]?, operands[i + 1]? with
    | some lhs, some rhs => gather operands (i + 1) ops (extend sofar (link op lhs rhs))
    | _, _ => sofar

/-- The chain with the conjunction that a pass over its operators builds. -/
def assemble (c : Chain) : Chain := { c with resolved := gather c.operands 0 c.ops none }

/-- The comparisons of a chain: one for each operator that has an operand on both sides, in
order. -/
structure Compares (c : Chain) (comparisons : List Expr) : Prop where
  length : comparisons.length = min c.ops.length (c.operands.length - 1)
  operands : ∀ i e, comparisons[i]? = some e → ∃ op lhs rhs,
    c.ops[i]? = some op ∧ c.operands[i]? = some lhs ∧ c.operands[i + 1]? = some rhs ∧
      e = ⟨.binary op lhs rhs, ⟨lhs.span.start, rhs.span.stop, lhs.span.stop⟩, .bool⟩

/-- `Conjoins es e`: the expression `e` is the conjunction of `es`, nested to the left. -/
inductive Conjoins : List Expr → Expr → Prop
  | single (e : Expr) : Conjoins [e] e
  | both {es : List Expr} {left e : Expr} (h : Conjoins es left) :
    Conjoins (es ++ [e])
      ⟨.binary .and left e, ⟨left.span.start, e.span.stop, left.span.stop⟩, .bool⟩

variable {es : List Expr} {e : Expr} {i : Nat}

/-! ### The pass -/

theorem foldl_extend (es : List Expr) (left : Expr) :
    es.foldl extend (some left) = some (es.foldl conjoin left) := by
  induction es generalizing left with
  | nil => rfl
  | cons e es ih => exact ih (conjoin left e)

theorem foldl_extend_none (es : List Expr) : es.foldl extend none = conjunction es := by
  cases es with
  | nil => rfl
  | cons e es => exact foldl_extend es e

/-- The pass from a position on adds the comparisons of the operands from there on. -/
theorem gather_append (front operands : List Expr) (ops : List BinaryOp) (sofar : Option Expr) :
    gather (front ++ operands) front.length ops sofar =
      (links operands ops).foldl extend sofar := by
  induction ops generalizing front operands sofar with
  | nil => cases operands with
    | nil => rfl
    | cons a rest => cases rest <;> rfl
  | cons op ops ih =>
    cases operands with
    | nil => simp [gather, links]
    | cons a rest =>
      cases rest with
      | nil => simp [gather, links]
      | cons b rest =>
        have shift := ih (front ++ [a]) (b :: rest) (extend sofar (link op a b))
        rw [List.append_assoc, List.length_append] at shift
        have left : (front ++ a :: b :: rest)[front.length]? = some a := by simp
        have right : (front ++ a :: b :: rest)[front.length + 1]? = some b := by simp
        simp only [gather, left, right]
        exact shift

theorem assemble_eq (c : Chain) : c.assemble = c.rebuild := by
  rw [assemble, rebuild, ← foldl_extend_none]
  exact congrArg _ (gather_append [] c.operands c.ops none)

/-! ### The comparisons -/

theorem length_links : (operands : List Expr) → (ops : List BinaryOp) →
    (links operands ops).length = min ops.length (operands.length - 1)
  | a :: b :: rest, op :: ops => by
    have tail := length_links (b :: rest) ops
    simp only [links, List.length_cons] at tail ⊢
    omega
  | [], _ | [_], _ => by simp [links]
  | _ :: _ :: _, [] => by simp [links]

theorem getElem?_links : (operands : List Expr) → (ops : List BinaryOp) → {i : Nat} → {e : Expr} →
    (links operands ops)[i]? = some e → ∃ op lhs rhs,
      ops[i]? = some op ∧ operands[i]? = some lhs ∧ operands[i + 1]? = some rhs ∧ e = link op lhs rhs
  | a :: b :: rest, op :: ops, 0, e, h => ⟨op, a, b, rfl, rfl, rfl, (Option.some.inj h).symm⟩
  | _ :: b :: rest, _ :: ops, i + 1, e, h => getElem?_links (b :: rest) ops h
  | [], _, _, _, h | [_], _, _, _, h | _ :: _ :: _, [], _, _, h => by simp [links] at h

theorem compares_links (c : Chain) : c.Compares (links c.operands c.ops) where
  length := length_links c.operands c.ops
  operands _ _ h := getElem?_links c.operands c.ops h

/-! ### The conjunction -/

theorem Conjoins.foldl (h : Conjoins es e) (more : List Expr) :
    Conjoins (es ++ more) (more.foldl conjoin e) := by
  induction more generalizing es e with
  | nil => rwa [List.append_nil]
  | cons next more ih =>
    have longer := ih (h.both (e := next))
    rwa [List.append_assoc] at longer

/-- A conjunction reaches from its first part to its last. -/
theorem Conjoins.range (h : Conjoins es e) : ∃ first last,
    es.head? = some first ∧ es.getLast? = some last ∧
      e.span.start = first.span.start ∧ e.span.stop = last.span.stop := by
  induction h with
  | single e => exact ⟨e, e, rfl, rfl, rfl, rfl⟩
  | @both es left e _ ih =>
    obtain ⟨first, last, head, -, start, -⟩ := ih
    refine ⟨first, e, ?_, by simp, start, rfl⟩
    rw [List.head?_append, head]
    rfl

/-- Rebuilding a chain keeps operands and operators. Its conjunction is the one that a pass over
the operators builds: the comparisons of adjacent operands as far as both go, nested to the left.
It reaches from the first operand to the last one that is compared, and rebuilding once more changes
nothing. -/
theorem rebuild_means (c : Chain) :
    c.assemble = c.rebuild ∧ c.rebuild.operands = c.operands ∧ c.rebuild.ops = c.ops ∧
    c.rebuild.rebuild = c.rebuild ∧
    ∃ comparisons, c.Compares comparisons ∧
      (comparisons = [] ∧ c.rebuild.resolved = none ∨
        ∃ e first last, c.rebuild.resolved = some e ∧ Conjoins comparisons e ∧
          c.operands[0]? = some first ∧ c.operands[comparisons.length]? = some last ∧
          e.span.start = first.span.start ∧ e.span.stop = last.span.stop) := by
  refine ⟨c.assemble_eq, rfl, rfl, rfl, links c.operands c.ops, c.compares_links, ?_⟩
  cases split : links c.operands c.ops with
  | nil =>
    refine .inl ⟨rfl, ?_⟩
    rw [rebuild, split]
    rfl
  | cons link others =>
    have resolved : c.rebuild.resolved = some (others.foldl conjoin link) := by
      rw [rebuild, split]
      rfl
    have conjoins : Conjoins (link :: others) (others.foldl conjoin link) :=
      (Conjoins.single link).foldl others
    have compares := split ▸ c.compares_links
    obtain ⟨first, last, head, final, start, stop⟩ := conjoins.range
    rw [List.getLast?_eq_getElem?] at final
    obtain ⟨_, a, _, -, ha, -, rfl⟩ := compares.operands 0 first (by simpa using head)
    obtain ⟨_, _, b, -, -, hb, rfl⟩ := compares.operands _ last final
    exact .inr ⟨_, a, b, resolved, conjoins, ha, hb, start, stop⟩

/-- `a < b <= c` is `a < b && b <= c`, and the last operator of `a < b <=` lacks an operand. -/
example :
    let name (n : String) (pos : Pos) : Expr := ⟨.name n, .token pos, .int⟩
    let first : Expr := ⟨.binary .lt (name "a" 1) (name "b" 3), ⟨1, 3, 1⟩, .bool⟩
    let second : Expr := ⟨.binary .le (name "b" 3) (name "c" 5), ⟨3, 5, 3⟩, .bool⟩
    (rebuild ⟨[name "a" 1, name "b" 3, name "c" 5], [.lt, .le], none⟩).resolved =
        some ⟨.binary .and first second, ⟨1, 5, 3⟩, .bool⟩ ∧
      (rebuild ⟨[name "a" 1, name "b" 3], [.lt, .le], none⟩).resolved = some first :=
  ⟨rfl, rfl⟩

end Mutation.Chain
