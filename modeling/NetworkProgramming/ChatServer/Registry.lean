import Mathlib.Data.List.Nodup
import Mathlib.Data.List.Basic
import Mathlib.Logic.Function.Basic

/-!
# The registry of the chat server

`clnt_socks` and `clnt_cnt` with the two sections that change them: the
registration in `main` and the disconnect section of `handle_clnt`, whose search
and shift loops are kept one iteration a step. An index outside the array gives
`none`.
-/
namespace NetworkProgramming.ChatRegistry

def maxClnt : Int := 256

/-- The globals `clnt_cnt` and `clnt_socks[MAX_CLNT]`. -/
structure Registry where
  clntCnt : Int
  clntSocks : Int → Int

def initial : Registry := ⟨0, fun _ => 0⟩

def load (r : Registry) (i : Int) : Option Int :=
  if 0 ≤ i ∧ i < maxClnt then some (r.clntSocks i) else none

def store (r : Registry) (i v : Int) : Option Registry :=
  if 0 ≤ i ∧ i < maxClnt then some { r with clntSocks := Function.update r.clntSocks i v }
  else none

/-- `clnt_socks[clnt_cnt++] = clnt_sock` in `main`. -/
def register (clntSock : Int) (r : Registry) : Option Registry :=
  (store r r.clntCnt clntSock).map fun r => { r with clntCnt := r.clntCnt + 1 }

/-- Where a thread is in the disconnect section. -/
inductive RemovePc where
  | search (i : Int)
  | shift (i : Int)
  | decrement
  | finished
  deriving DecidableEq, Repr

/-- One iteration of the disconnect section between lock and unlock. -/
def removeStep (clntSock : Int) : RemovePc → Registry → Option (RemovePc × Registry)
  | .search i, r =>
    if i < r.clntCnt then
      (load r i).map fun v => if clntSock = v then (.shift i, r) else (.search (i + 1), r)
    else some (.decrement, r)
  | .shift i, r =>
    -- `while(i++ < clnt_cnt - 1)`: the body already sees the advanced index
    if i < r.clntCnt - 1 then
      (load r (i + 1 + 1)).bind fun v => (store r (i + 1) v).map fun r => (.shift (i + 1), r)
    else some (.decrement, r)
  | .decrement, r => some (.finished, { r with clntCnt := r.clntCnt - 1 })
  | .finished, _ => none

/-- Everything an iteration of the disconnect section can do. -/
inductive RemoveMove (clntSock : Int) (r : Registry) : RemovePc → RemovePc → Registry → Prop where
  | found (i : Int) (inside : i < r.clntCnt) (low : 0 ≤ i) (high : i < maxClnt)
      (here : r.clntSocks i = clntSock) : RemoveMove clntSock r (.search i) (.shift i) r
  | passed (i : Int) (inside : i < r.clntCnt) (low : 0 ≤ i) (high : i < maxClnt)
      (other : r.clntSocks i ≠ clntSock) : RemoveMove clntSock r (.search i) (.search (i + 1)) r
  | missing (i : Int) (behind : ¬ i < r.clntCnt) : RemoveMove clntSock r (.search i) .decrement r
  | moved (i : Int) (inside : i < r.clntCnt - 1) (low : 0 ≤ i + 1) (high : i + 1 + 1 < maxClnt) :
      RemoveMove clntSock r (.shift i) (.shift (i + 1)) { r with
        clntSocks := Function.update r.clntSocks (i + 1) (r.clntSocks (i + 1 + 1)) }
  | shiftDone (i : Int) (behind : ¬ i < r.clntCnt - 1) :
      RemoveMove clntSock r (.shift i) .decrement r
  | decrement : RemoveMove clntSock r .decrement .finished { r with clntCnt := r.clntCnt - 1 }

theorem removeStep_move {clntSock : Int} {pc next : RemovePc} {r r' : Registry}
    (h : removeStep clntSock pc r = some (next, r')) : RemoveMove clntSock r pc next r' := by
  cases pc with
  | search i =>
    simp only [removeStep] at h
    split at h
    next hi =>
      obtain ⟨v, hload, h⟩ := Option.map_eq_some_iff.mp h
      obtain ⟨⟨h0, h1⟩, hv⟩ := Option.ite_none_right_eq_some.mp hload
      obtain rfl := Option.some.inj hv
      split at h
      next he =>
        cases h
        exact .found i hi h0 h1 he.symm
      next hne =>
        cases h
        exact .passed i hi h0 h1 (Ne.symm hne)
    next hi =>
      cases h
      exact .missing i hi
  | shift i =>
    simp only [removeStep] at h
    split at h
    next hi =>
      obtain ⟨v, hload, h⟩ := Option.bind_eq_some_iff.mp h
      obtain ⟨⟨-, h1⟩, hv⟩ := Option.ite_none_right_eq_some.mp hload
      obtain rfl := Option.some.inj hv
      obtain ⟨u, hstore, h⟩ := Option.map_eq_some_iff.mp h
      obtain ⟨⟨h0, -⟩, hu⟩ := Option.ite_none_right_eq_some.mp hstore
      obtain rfl := Option.some.inj hu
      cases h
      exact .moved i hi h0 h1
    next hi =>
      cases h
      exact .shiftDone i hi
  | decrement =>
    cases h
    exact .decrement
  | finished => cases h

/-- At most the given number of iterations of the section, to its end. -/
def removeRun (clntSock : Int) : Nat → RemovePc → Registry → Option Registry
  | 0, _, _ => none
  | n + 1, pc, r =>
    (removeStep clntSock pc r).bind fun next =>
      if next.1 = .finished then some next.2 else removeRun clntSock n next.1 next.2

/-- The whole disconnect section. Search and shift together never take more than
`clnt_cnt + 1` iterations, so the bound does not cut it short. -/
def disconnect (clntSock : Int) (r : Registry) : Option Registry :=
  removeRun clntSock (r.clntCnt.toNat + 2) (.search 0) r

/-- `clnt_socks[0..clnt_cnt)`. -/
def entries (r : Registry) : List Int :=
  (List.range r.clntCnt.toNat).map fun k : Nat => r.clntSocks (k : Int)

@[simp] theorem entries_length (r : Registry) : (entries r).length = r.clntCnt.toNat := by
  simp [entries]

@[simp] theorem entries_getElem (r : Registry) (k : Nat) (h : k < (entries r).length) :
    (entries r)[k] = r.clntSocks k := by
  simp [entries]

theorem load_some {r : Registry} {i : Int} (h₀ : 0 ≤ i) (h₁ : i < maxClnt) :
    load r i = some (r.clntSocks i) := if_pos ⟨h₀, h₁⟩

theorem store_some {r : Registry} {i : Int} (v : Int) (h₀ : 0 ≤ i) (h₁ : i < maxClnt) :
    store r i v = some { r with clntSocks := Function.update r.clntSocks i v } :=
  if_pos ⟨h₀, h₁⟩

/-- Registration appends the socket. -/
theorem register_spec (clntSock : Int) (r : Registry) (h₀ : 0 ≤ r.clntCnt)
    (h₁ : r.clntCnt < maxClnt) :
    ∃ t, register clntSock r = some t ∧ t.clntCnt = r.clntCnt + 1 ∧
      entries t = entries r ++ [clntSock] := by
  refine ⟨_, by rw [register, store_some _ h₀ h₁]; rfl, rfl, ?_⟩
  apply List.ext_getElem
  · simp only [entries_length, List.length_append, List.length_singleton]
    omega
  · intro k hk hk'
    simp only [entries_length, List.length_append, List.length_singleton] at hk hk'
    rw [entries_getElem, List.getElem_append]
    split
    · have hne : (k : Int) ≠ r.clntCnt := by simp only [entries_length] at *; omega
      simp [Function.update_of_ne hne]
    · have he : (k : Int) = r.clntCnt := by simp only [entries_length] at *; omega
      simp [he]

/-- What the shift loop leaves when it starts at index `i`: the elements behind
the next one move down, the element at `i` itself stays. -/
def shifted (f : Int → Int) (i clntCnt : Int) : Int → Int :=
  fun j => if i < j ∧ j < clntCnt then f (j + 1) else f j

theorem shifted_last (f : Int → Int) (i clntCnt : Int) (h : ¬ i < clntCnt - 1) :
    shifted f i clntCnt = f := by
  funext j
  exact if_neg (by omega)

theorem shifted_step (f : Int → Int) (i clntCnt : Int) (h : i < clntCnt - 1) :
    shifted (Function.update f (i + 1) (f (i + 1 + 1))) (i + 1) clntCnt = shifted f i clntCnt := by
  funext j
  unfold shifted
  by_cases hj : j = i + 1
  · subst j
    rw [if_neg (by omega), if_pos (by omega), Function.update_self]
  · by_cases hr : i + 1 < j ∧ j < clntCnt
    · rw [if_pos hr, if_pos (by omega), Function.update_of_ne (by omega)]
    · rw [if_neg hr, if_neg (by omega), Function.update_of_ne hj]

theorem removeRun_shift (clntSock : Int) (n : Nat) (r : Registry) (i : Int)
    (h₀ : 0 ≤ i) (h₁ : i < r.clntCnt) (hmax : r.clntCnt < maxClnt)
    (hn : (r.clntCnt - 1 - i).toNat + 2 ≤ n) :
    removeRun clntSock n (.shift i) r =
      some ⟨r.clntCnt - 1, shifted r.clntSocks i r.clntCnt⟩ := by
  induction n generalizing r i with
  | zero => omega
  | succ n ih =>
    by_cases hi : i < r.clntCnt - 1
    · have hs := ih ⟨r.clntCnt, Function.update r.clntSocks (i + 1) (r.clntSocks (i + 1 + 1))⟩
        (i + 1) (by omega) (by simp only; omega) hmax (by simp only; omega)
      rw [removeRun, removeStep, if_pos hi, load_some (by omega) (by omega)]
      simp only [Option.bind_some, store_some _ (show 0 ≤ i + 1 by omega)
        (show i + 1 < maxClnt by omega), Option.map_some, reduceCtorEq, if_false]
      rw [hs, shifted_step _ _ _ hi]
    · obtain ⟨m, rfl⟩ : ∃ m, n = m + 1 := ⟨n - 1, by omega⟩
      simp [removeRun, removeStep, hi, shifted_last _ _ _ hi]

/-- The section on a client whose first entry is at index `p`. -/
theorem removeRun_search (clntSock : Int) (n : Nat) (r : Registry) (i p : Int)
    (h₀ : 0 ≤ i) (hip : i ≤ p) (hp : p < r.clntCnt) (hmax : r.clntCnt < maxClnt)
    (hfound : r.clntSocks p = clntSock)
    (hfirst : ∀ j, i ≤ j → j < p → r.clntSocks j ≠ clntSock)
    (hn : (r.clntCnt - i).toNat + 2 ≤ n) :
    removeRun clntSock n (.search i) r =
      some ⟨r.clntCnt - 1, shifted r.clntSocks p r.clntCnt⟩ := by
  induction n generalizing i with
  | zero => omega
  | succ n ih =>
    rw [removeRun, removeStep, if_pos (by omega), load_some h₀ (by omega)]
    by_cases he : i = p
    · subst i
      simp only [Option.map_some, Option.bind_some, hfound, if_true, reduceCtorEq, if_false]
      exact removeRun_shift clntSock n r p h₀ hp hmax (by omega)
    · have hne : clntSock ≠ r.clntSocks i := fun h => hfirst i (by omega) (by omega) h.symm
      simp only [Option.map_some, Option.bind_some, if_neg hne, reduceCtorEq, if_false]
      exact ih (i + 1) (by omega) (by omega) (fun j hj => hfirst j (by omega)) (by omega)

/-- The last client is removed as intended: the shift loop has no iteration. -/
theorem entries_shifted_last (r : Registry) (p : Nat) (h : (p : Int) + 1 = r.clntCnt) :
    entries ⟨r.clntCnt - 1, shifted r.clntSocks p r.clntCnt⟩ = (entries r).eraseIdx p := by
  rw [shifted_last _ _ _ (by omega)]
  apply List.ext_getElem
  · rw [List.length_eraseIdx_of_lt (by simp; omega)]
    simp only [entries_length]
    omega
  · intro k hk hk'
    simp only [entries_length] at hk
    rw [entries_getElem, List.getElem_eraseIdx_of_lt _ (by omega), entries_getElem]

/-- For any earlier client the loop removes the one behind it. -/
theorem entries_shifted_earlier (r : Registry) (p : Nat) (h : (p : Int) + 1 < r.clntCnt) :
    entries ⟨r.clntCnt - 1, shifted r.clntSocks p r.clntCnt⟩ = (entries r).eraseIdx (p + 1) := by
  apply List.ext_getElem
  · rw [List.length_eraseIdx_of_lt (by simp; omega)]
    simp only [entries_length]
    omega
  · intro k hk hk'
    simp only [entries_length] at hk
    rw [entries_getElem, List.getElem_eraseIdx]
    split
    · rw [entries_getElem]
      exact if_neg (by omega)
    · rw [entries_getElem]
      exact if_pos (by omega)

/-- The disconnect section of the client at index `p` of a registry that holds
it once. -/
theorem disconnect_spec (r : Registry) (p : Nat) (hmax : r.clntCnt < maxClnt)
    (hnodup : (entries r).Nodup) (hp : p < (entries r).length) :
    disconnect (entries r)[p] r =
      some ⟨r.clntCnt - 1, shifted r.clntSocks p r.clntCnt⟩ := by
  have hlen := entries_length r
  refine removeRun_search _ _ r 0 p (by omega) (by omega) (by omega) hmax (by simp) ?_ (by omega)
  intro j h₀ hj he
  obtain ⟨k, rfl⟩ := Int.eq_ofNat_of_zero_le h₀
  have hk : k < (entries r).length := by omega
  rw [← entries_getElem r k hk] at he
  have := hnodup.getElem_inj_iff.mp he
  omega

end NetworkProgramming.ChatRegistry
