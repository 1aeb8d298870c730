import Mutation.Json.Decoder
import Mutation.Search

/-!
# Requests from JSON

The decoders for locations, kinds, candidates and requests. A kind is given by its exact code; a
range is taken as it is, its start may lie after its end.
-/

namespace Mutation

/-- Decodes a location. -/
def Location.decoder : Decoder Location := fun b j =>
  match Decoder.variant b j with
  | some ("Anchor", some v, b) => (Decoder.word32 b v).map .anchor
  | some ("Span", some v, b) =>
    Decoder.record ["start", "end"] (fun r b => do
      return .range (← r.required "start" .word32 b) (← r.required "end" .word32 b)) b v
  | _ => none

/-- Decodes a kind. -/
def Kind.decoder : Decoder Kind := .unitVariant Kind.ofCode?

/-- Decodes a candidate. -/
def Candidate.decoder : Decoder Candidate :=
  .record ["location", "kind", "argument"] fun r b => do
    return ⟨← r.required "location" Location.decoder b, ← r.required "kind" Kind.decoder b,
      ← r.required "argument" .string b⟩

/-- Decodes a request. -/
def Request.decoder : Decoder Request :=
  .record ["location", "kind", "argument"] fun r b => do
    return ⟨← r.required "location" Location.decoder b, ← r.required "kind" Kind.decoder b,
      ← r.defaulted "argument" none (.opt .string) b⟩

end Mutation
