import Mutation.Proofs.Bystanders
import Mutation.Proofs.Typing

/-!
# Remainders of expressions

A reduction takes a name out of an expression (`Expr.remainder_reduce`). It loses only expressions
that mention the name, and leaves those alone that do not. What it leaves does not mention the name
and has the type of the expression, but for one case: an operand that stands for a binary
expression keeps its own type. That type was compared with the place before anything was reduced,
and the operand may itself give way to one of its operands, so what is asked of the type has to pass
from an operand to what is left of it (`Ty.fits_of_near`).
-/

namespace Mutation

/-- What fits somewhere still does when it is `int` for `nat` or `nat` for `int`. -/
theorem Ty.fits_of_near {a b c : Ty} (near : a.Near b) (h : b.fits c = true) :
    a.fits c = true := by
  obtain rfl | ⟨rfl, rfl⟩ | ⟨rfl, rfl⟩ := near
  · exact h
  · cases c <;> simp_all [fits]
  · cases c <;> simp_all [fits]

variable {dead : String}

/-- Only a binary expression can come out of a reduction with another type. -/
theorem ExprKind.ty_reduce {kind : ExprKind} (binary : ∀ op l r, kind ≠ .binary op l r)
    {span : Span} {ty wanted : Ty} {e' : Expr}
    (h : (kind.reduce dead span ty wanted).rest = some e') : e'.ty = ty := by
  cases kind with
  | literal _ | this =>
    cases h
    rfl
  | name n =>
    simp only [reduce] at h
    split at h <;> cases h
    rfl
  | binary op l r => exact absurd rfl (binary op l r)
  | _ =>
    obtain ⟨_, -, rfl⟩ := Reduction.map_rest h
    rfl

/-- What is left of an expression has its type, or a type that fits both the expression and the
place where it stands. -/
theorem Expr.ty_reduce {e e' : Expr} {wanted : Ty} (h : (e.reduce dead wanted).rest = some e') :
    e'.ty = e.ty ∨ e'.ty.fits e.ty = true ∧ e'.ty.fits wanted = true := by
  induction e using Expr.induct generalizing wanted e' with
  | step e ih =>
    obtain ⟨kind, span, ty⟩ := e
    rw [Expr.reduce] at h
    by_cases binary : ∃ op l r, kind = .binary op l r
    · obtain ⟨op, l, r, rfl⟩ := binary
      -- an operand that stands alone was asked for its own type, whatever is left of it
      have alone : ∀ x ∈ [l, r], ∀ x', (x.reduce dead x.ty).rest = some x' →
          (x.ty.fits ty && x.ty.fits wanted) = true →
          x'.ty.fits ty = true ∧ x'.ty.fits wanted = true := by
        intro x hx x' left fits
        have near : x'.ty.Near x.ty := by
          rcases ih x hx left with same | ⟨own, -⟩
          · exact .inl same
          · exact Ty.near_of_fits own
        obtain ⟨whole, place⟩ := Bool.and_eq_true_iff.1 fits
        exact ⟨Ty.fits_of_near near whole, Ty.fits_of_near near place⟩
      simp only [ExprKind.reduce, Reduction.either] at h
      split at h
      · cases h
        exact .inl rfl
      · split at h <;> cases h
        exact .inr (alone l (by simp) _ ‹_› ‹_›)
      · split at h <;> cases h
        exact .inr (alone r (by simp) _ ‹_› ‹_›)
      · cases h
    · exact .inl (ExprKind.ty_reduce (fun op l r other => binary ⟨op, l, r, other⟩) h)

/-- What a reduction comes to: nothing only where the name occurs; the expression itself where it
does not; and otherwise an expression without the name. Its type is the old one, or one of the two
is `int` and the other `nat`, and a type that is not the old one fits the place. -/
theorem Expr.remainder_reduce {e : Expr} (coherent : e.Coherent) (dead : String) (wanted : Ty) :
    ((e.reduce dead wanted).rest = none → e.mentions dead = true) ∧
    (e.mentions dead = false → (e.reduce dead wanted).rest = some e) ∧
    ∀ e', (e.reduce dead wanted).rest = some e' →
      e'.mentions dead = false ∧ e'.ty.Near e.ty ∧
      (e'.ty ≠ e.ty → e'.ty.fits wanted = true) := by
  refine ⟨fun lost => ?_, fun absent => ?_, fun e' left => ⟨?_, ?_, fun other => ?_⟩⟩
  · exact List.contains_iff_mem.2 (Expr.mem_names_of_lost lost)
  · have free : dead ∉ e.names := by simpa [mentions] using absent
    rw [Expr.reduce_of_absent coherent free]
    rfl
  · rw [mentions, Bool.eq_false_iff]
    intro mentioned
    exact ((Expr.reduces left).names (List.contains_iff_mem.1 mentioned)).2 rfl
  · rcases Expr.ty_reduce left with same | ⟨fits, -⟩
    · exact .inl same
    · exact Ty.near_of_fits fits
  · rcases Expr.ty_reduce left with same | ⟨-, fits⟩
    · exact absurd same other
    · exact fits

/-- The difference `(n + x) - x` of integers, where `n` is a natural number. -/
def Expr.drained : Expr :=
  ⟨.binary .sub
    ⟨.binary .add ⟨.name "n", .token 4, .nat⟩ ⟨.name "x", .token 6, .int⟩, ⟨4, 6, 5⟩, .int⟩
    ⟨.name "x", .token 8, .int⟩, ⟨4, 8, 7⟩, .int⟩

/-- The sum stands for the difference and `n` for the sum, so a natural number is left where an
integer is wanted. -/
theorem Expr.drained_remainder :
    Expr.drained.Coherent ∧ Expr.drained.mentions "x" = true ∧
      ∃ e', (Expr.drained.reduce "x" .int).rest = some e' ∧ e'.name? = some "n" ∧
        e'.mentions "x" = false ∧ e'.ty ≠ Expr.drained.ty ∧ e'.ty.Near Expr.drained.ty ∧
        e'.ty.fits .int = true := by
  have leaf : ∀ {n : String} {span : Span} {ty : Ty}, Expr.Coherent ⟨.name n, span, ty⟩ :=
    .ofParts (by simp) (by simp [ExprKind.parts])
  have sum : ∀ {l r : Expr} {op : BinaryOp} {span : Span} {ty : Ty}, l.Coherent → r.Coherent →
      Expr.Coherent ⟨.binary op l r, span, ty⟩ :=
    fun hl hr => .ofParts (by simp) (by simp [ExprKind.parts, hl, hr])
  have coherent : Expr.drained.Coherent := sum (sum leaf leaf) leaf
  have left : (Expr.drained.reduce "x" .int).rest = some ⟨.name "n", .token 4, .nat⟩ := rfl
  have other : Ty.nat ≠ Expr.drained.ty := by decide
  obtain ⟨gone, near, fits⟩ := (Expr.remainder_reduce coherent "x" .int).2.2 _ left
  exact ⟨coherent, rfl, _, left, rfl, gone, other, near, fits other⟩

end Mutation
