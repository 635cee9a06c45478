import Mathlib.Data.Finmap
import NetworkProgramming.Library.Transition

/-!
# Maps that grow by fresh keys

Runs in which every step puts one value under a key that was not there before.
-/
namespace NetworkProgramming.FreshKeys

open Transition

variable {κ β α : Type*} [DecidableEq κ]

abbrev Map (κ β : Type*) := Finmap fun _ : κ => β

/-- The values have come under new keys of their own, in order, and nothing else has changed. -/
structure Adds (d d' : Map κ β) (keys : List κ) (values : List β) : Prop where
  nodup : keys.Nodup
  fresh : ∀ k ∈ keys, k ∉ d
  added : List.Forall₂ (fun k v => d'.lookup k = some v) keys values
  others : ∀ k ∉ keys, d'.lookup k = d.lookup k

theorem Adds.nil (d : Map κ β) : Adds d d [] [] :=
  ⟨List.nodup_nil, by simp, .nil, fun _ _ => rfl⟩

/-- What is added later does not touch what is added first. -/
theorem Adds.cons {d d' : Map κ β} {k : κ} {v : β} {keys : List κ} {values : List β}
    (hk : k ∉ d) (h : Adds (d.insert k v) d' keys values) :
    Adds d d' (k :: keys) (v :: values) := by
  have hnot : k ∉ keys := fun hmem => h.fresh k hmem (Finmap.mem_insert.mpr (.inl rfl))
  constructor
  · exact List.nodup_cons.mpr ⟨hnot, h.nodup⟩
  · intro j hj
    rcases List.mem_cons.mp hj with rfl | hj
    · exact hk
    · exact fun hd => h.fresh j hj (Finmap.mem_insert.mpr (.inr hd))
  · exact .cons ((h.others k hnot).trans (Finmap.lookup_insert d)) h.added
  · intro j hj
    rw [List.mem_cons, not_or] at hj
    rw [h.others j hj.2, Finmap.lookup_insert_of_ne d hj.1]

end NetworkProgramming.FreshKeys
