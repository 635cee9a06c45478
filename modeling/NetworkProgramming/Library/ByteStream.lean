import Mathlib.Algebra.Order.BigOperators.Group.List
import Mathlib.Algebra.Group.Action.Defs
import Mathlib.Algebra.Order.Ring.Nat

/-!
# Byte streams and the pieces a reader gets

A stream keeps the bytes and their order, not the boundaries of the writes. What
the reader sees is some segmentation of the bytes into nonempty pieces of at
most the size it asked for.
-/
namespace NetworkProgramming.ByteStream

variable {α : Type*}

/-- The bytes arrive as these read results, each of 1 to `limit` bytes. -/
def Segmentation (limit : Nat) (bytes : List α) (chunks : List (List α)) : Prop :=
  chunks.flatten = bytes ∧ ∀ c ∈ chunks, 0 < c.length ∧ c.length ≤ limit

instance [DecidableEq α] (limit : Nat) (bytes : List α) (chunks : List (List α)) :
    Decidable (Segmentation limit bytes chunks) :=
  inferInstanceAs (Decidable (_ ∧ _))

theorem Segmentation.flatten {limit : Nat} {bytes : List α} {chunks : List (List α)}
    (h : Segmentation limit bytes chunks) : chunks.flatten = bytes := h.1

theorem length_flatten_le {limit : Nat} {chunks : List (List α)}
    (h : ∀ c ∈ chunks, c.length ≤ limit) : chunks.flatten.length ≤ limit * chunks.length := by
  have hsum := List.sum_le_card_nsmul (chunks.map List.length) limit (by simpa using h)
  rw [List.length_flatten, Nat.mul_comm]
  simpa only [List.length_map, smul_eq_mul] using hsum

/-- Pieces that could hold no more bytes are all full. -/
theorem full_of_length {limit : Nat} {chunks : List (List α)}
    (h : ∀ c ∈ chunks, c.length ≤ limit)
    (hl : chunks.flatten.length = limit * chunks.length) : ∀ c ∈ chunks, c.length = limit := by
  induction chunks with
  | nil => simp
  | cons c cs ih =>
    have hc := h c (by simp)
    have hle : ∀ d ∈ cs, d.length ≤ limit := fun d hd => h d (by simp [hd])
    have hcs := length_flatten_le hle
    simp only [List.flatten_cons, List.length_append, List.length_cons, Nat.mul_succ] at hl
    intro d hd
    rcases List.mem_cons.mp hd with rfl | hd
    · omega
    · exact ih hle (by omega) d hd

/-- Pieces of one common size are determined by the bytes and their number. -/
theorem eq_of_flatten_eq {n : Nat} {cs ds : List (List α)} (hn : 0 < n)
    (hc : ∀ c ∈ cs, c.length = n) (hd : ∀ d ∈ ds, d.length = n)
    (h : cs.flatten = ds.flatten) : cs = ds := by
  have hlen : ∀ es : List (List α), (∀ e ∈ es, e.length = n) →
      es.map List.length = List.replicate es.length n ∧ es.flatten.length = es.length * n := by
    intro es he
    have hm : es.map List.length = List.replicate es.length n :=
      List.eq_replicate_iff.mpr ⟨by simp, by simpa using he⟩
    exact ⟨hm, by rw [List.length_flatten, hm, List.sum_replicate_nat]⟩
  have hcd : cs.length = ds.length := by
    have he := (hlen cs hc).2.symm.trans ((congrArg List.length h).trans (hlen ds hd).2)
    exact Nat.eq_of_mul_eq_mul_right hn he
  refine List.eq_iff_flatten_eq.mpr ⟨h, ?_⟩
  rw [(hlen cs hc).1, (hlen ds hd).1, hcd]

/-- If the first piece is everything, no other one follows. -/
theorem eq_nil_of_flatten_cons {c : List α} {cs : List (List α)} (hne : ∀ d ∈ cs, d ≠ [])
    (h : (c :: cs).flatten = c) : cs = [] := by
  rw [List.flatten_cons, List.append_right_eq_self] at h
  cases cs with
  | nil => rfl
  | cons d ds =>
    rw [List.flatten_cons, List.append_eq_nil_iff] at h
    exact absurd h.1 (hne d List.mem_cons_self)

section Separators
variable [DecidableEq α] (sep : α)

/-- Without its last byte a piece has one byte less, unless that is a separator. -/
theorem length_filter_dropLast {c : List α} (hne : c ≠ []) :
    (c.dropLast.filter (· != sep)).length + (if c.getLast? = some sep then 0 else 1) =
      (c.filter (· != sep)).length := by
  obtain ⟨front, last, rfl⟩ : ∃ front last, c = front ++ [last] :=
    ⟨_, _, (List.dropLast_append_getLast hne).symm⟩
  by_cases hl : last = sep <;> simp [hl]

/-- The pieces without their last bytes have all the bytes that are no separators exactly
if every piece ends in one. -/
theorem filter_dropLast_flatten_iff {chunks : List (List α)} (hne : ∀ c ∈ chunks, c ≠ []) :
    (chunks.map List.dropLast).flatten.filter (· != sep) = chunks.flatten.filter (· != sep) ↔
      ∀ c ∈ chunks, c.getLast? = some sep := by
  have hlength : ∀ ds : List (List α), (∀ d ∈ ds, d ≠ []) →
      ((ds.map List.dropLast).flatten.filter (· != sep)).length +
          ds.countP (·.getLast? != some sep) = (ds.flatten.filter (· != sep)).length := by
    intro ds hds
    induction ds with
    | nil => rfl
    | cons d ds ih =>
      have hd := length_filter_dropLast sep (hds d (by simp))
      have hrest := ih fun e he => hds e (by simp [he])
      have hone : (if (d.getLast? != some sep) = true then 1 else 0) =
          if d.getLast? = some sep then 0 else 1 := by
        by_cases hl : d.getLast? = some sep <;> simp [hl]
      simp only [List.map_cons, List.flatten_cons, List.filter_append, List.length_append,
        List.countP_cons, hone]
      omega
  constructor
  · intro h c hc
    have hcount := hlength chunks hne
    rw [h] at hcount
    have hzero : chunks.countP (·.getLast? != some sep) = 0 := by omega
    simpa using List.countP_eq_zero.mp hzero c hc
  · intro h
    induction chunks with
    | nil => rfl
    | cons c cs ih =>
      obtain ⟨front, rfl⟩ := List.getLast?_eq_some_iff.mp (h c (by simp))
      have hrest := ih (fun d hd => hne d (by simp [hd])) fun d hd => h d (by simp [hd])
      simp only [List.map_cons, List.flatten_cons, List.filter_append, List.dropLast_concat, hrest]
      simp

end Separators

/-- One direction of a connection: the bytes under way and the end mark behind them. -/
structure Stream (α : Type*) where
  queue : List α
  ended : Bool

namespace Stream

def empty : Stream α := ⟨[], false⟩

def send (st : Stream α) (bytes : List α) : Stream α := { st with queue := st.queue ++ bytes }

def finish (st : Stream α) : Stream α := { st with ended := true }

/-- A read that asks for `limit` bytes and gets `len`. It gets 0 only at the end mark,
and waits while there is neither a byte nor the mark. -/
def receive (limit len : Nat) (st : Stream α) : Option (List α × Stream α) :=
  if len = 0 then if st.queue = [] ∧ st.ended then some ([], st) else none
  else if len ≤ limit ∧ len ≤ st.queue.length then
    some (st.queue.take len, { st with queue := st.queue.drop len })
  else none

/-- A read takes a piece off the front, and an empty one only at the end. -/
theorem receive_spec {limit len : Nat} {st st' : Stream α} {piece : List α}
    (h : st.receive limit len = some (piece, st')) :
    piece ++ st'.queue = st.queue ∧ st'.ended = st.ended ∧
      (piece = [] → st.queue = [] ∧ st.ended = true) := by
  unfold receive at h
  split at h
  next =>
    obtain ⟨hend, h⟩ := Option.ite_none_right_eq_some.mp h
    cases h
    exact ⟨rfl, rfl, fun _ => hend⟩
  next hlen =>
    obtain ⟨⟨-, hq⟩, h⟩ := Option.ite_none_right_eq_some.mp h
    cases h
    refine ⟨List.take_append_drop len st.queue, rfl, fun hnil => ?_⟩
    have hl := congrArg List.length hnil
    simp only [List.length_take, List.length_nil] at hl
    omega

/-- A read waits while nothing is under way. -/
theorem receive_none_of_empty {limit len : Nat} {st : Stream α} (hq : st.queue = [])
    (hopen : st.ended = false) : st.receive limit len = none := by
  unfold receive
  split
  next => simp [hopen]
  next hlen => exact if_neg fun h => hlen (by simpa [hq] using h.2)

/-- A read that asks for a byte gets one if there is one. -/
theorem receive_one {limit : Nat} {st : Stream α} (hq : st.queue ≠ []) (hlimit : 0 < limit) :
    st.receive limit 1 = some (st.queue.take 1, { st with queue := st.queue.drop 1 }) := by
  rw [receive, if_neg Nat.one_ne_zero, if_pos ⟨hlimit, List.length_pos_iff.mpr hq⟩]

end Stream

end NetworkProgramming.ByteStream
