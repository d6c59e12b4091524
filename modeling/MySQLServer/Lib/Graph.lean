import Mathlib.Logic.Relation

/-! # Cycles through one vertex

A graph is a relation.  When edges out of a single vertex are added to an acyclic graph, a cycle can
only go through that vertex, so that a search from it decides whether there is one.

* `Acyclic.of_source`: it is enough that the vertex does not reach itself.
* `not_reaches_of_searched`: a search has marked the vertex, and every edge out of a marked vertex
  goes to another vertex than the source that is marked, too, or has no edges. -/

namespace MySQLServer.Lib

open Relation (TransGen ReflTransGen)

variable {α : Type*} {E F : α → α → Prop}

/-- No vertex reaches itself. -/
def Acyclic (E : α → α → Prop) : Prop := ∀ a, ¬ TransGen E a a

theorem Acyclic.mono (h : Acyclic F) (hs : ∀ a b, E a b → F a b) : Acyclic E :=
  fun a ha => h a (TransGen.mono hs _ _ ha)

/-- A path has only old edges, or it goes through the source of the new ones. -/
theorem old_or_through_source {source a b : α} (hold : ∀ a b, a ≠ source → E a b → F a b)
    (h : TransGen E a b) : TransGen F a b ∨ ReflTransGen E a source ∧ TransGen E source b := by
  induction h with
  | @single b hab =>
    by_cases ha : a = source
    · subst ha
      exact .inr ⟨ReflTransGen.refl, TransGen.single hab⟩
    · exact .inl (TransGen.single (hold a b ha hab))
  | @tail b c hab hbc ih =>
    by_cases hb : b = source
    · subst hb
      exact .inr ⟨hab.to_reflTransGen, TransGen.single hbc⟩
    · rcases ih with ih | ⟨hto, hf⟩
      · exact .inl (ih.tail (hold b c hb hbc))
      · exact .inr ⟨hto, hf.tail hbc⟩

theorem Acyclic.of_source {source : α} (h : Acyclic F)
    (hold : ∀ a b, a ≠ source → E a b → F a b) (hs : ¬ TransGen E source source) : Acyclic E := by
  intro a ha
  rcases old_or_through_source hold ha with hold | ⟨hto, hf⟩
  · exact h a hold
  · exact hs (TransGen.trans_left hf hto)

/-- Every edge out of a marked vertex has been looked at. -/
def Searched (E : α → α → Prop) (source : α) (marked : α → Prop) : Prop :=
  ∀ a b, marked a → E a b → b ≠ source ∧ (marked b ∨ ∀ c, ¬ E b c)

theorem not_reaches_of_searched {source : α} {marked : α → Prop} (h : Searched E source marked)
    (hs : marked source) : ¬ TransGen E source source := by
  have hall : ∀ b, TransGen E source b → b ≠ source ∧ (marked b ∨ ∀ c, ¬ E b c) := by
    intro b hb
    induction hb with
    | single hab => exact h source _ hs hab
    | tail _ hbc ih =>
      rcases ih.2 with hm | hn
      · exact h _ _ hm hbc
      · exact absurd hbc (hn _)
  exact fun hc => (hall source hc).1 rfl

end MySQLServer.Lib
