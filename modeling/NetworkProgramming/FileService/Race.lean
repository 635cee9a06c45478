import Mathlib.Data.Fintype.Basic
import Mathlib.Logic.Function.Basic
import NetworkProgramming.FileService.Names
import NetworkProgramming.Library.Transition

/-!
# Clients in one directory

Any family of clients of one kind, started in the same directory. The existence
check of a round and the `fopen` behind the loop are separate steps.
-/
namespace NetworkProgramming.FileRace

open Buffer Transition QuizServer FileNames

/-- Where a client is: in front of an existence check, in front of its `fopen`, or behind it. -/
inductive Pc where
  | check (v : Vars)
  | fopen (name : Name)
  | opened (name : Name)
  | overrun
  deriving DecidableEq, Repr

variable {ι : Type}

structure State (ι : Type) where
  dir : Finset Name
  pc : ι → Pc

/-- The files that are there before, and what the stack of each client held. -/
def start (c : Client) (dir : Finset Name) (stack : ι → Fin nameSize → Byte) : State ι where
  dir := dir
  pc i := (c.start (stack i)).elim .overrun .check

/-- No client is about to open a file that another one has created, and no two have opened
the same one. -/
structure Apart (s : State ι) : Prop where
  opens : ∀ i j name, s.pc i = .fopen name → s.pc j ≠ .opened name
  names : ∀ i j name, s.pc i = .opened name → s.pc j = .opened name → i = j

/-- The name that the client's next check finds free. -/
def freeName (s : State ι) (i : ι) : Option Name :=
  match s.pc i with
  | .check v => (text v.newFileName).filter (· ∉ s.dir)
  | _ => none

/-- A client finds a name free only while no other client is between its own check and the
`fopen` of this name. -/
def Unclaimed (s : State ι) (i : ι) : Prop :=
  ∀ name ∈ freeName s i, ∀ j, s.pc j ≠ .fopen name

instance [Fintype ι] (s : State ι) (i : ι) : Decidable (Unclaimed s i) :=
  inferInstanceAs (Decidable (∀ name ∈ freeName s i, ∀ j, s.pc j ≠ .fopen name))

theorem freeName_eq_some_iff {s : State ι} {i : ι} {name : Name} :
    freeName s i = some name ↔
      ∃ v, s.pc i = .check v ∧ text v.newFileName = some name ∧ name ∉ s.dir := by
  unfold freeName
  cases hpc : s.pc i <;> simp [Option.filter_eq_some_iff]

/-- A name is claimed by one client and is free until it opens it; what is opened exists. -/
structure Invariant (s : State ι) : Prop where
  claimed : ∀ i j name, s.pc i = .fopen name → s.pc j = .fopen name → i = j
  free : ∀ i name, s.pc i = .fopen name → name ∉ s.dir
  exists_opened : ∀ i name, s.pc i = .opened name → name ∈ s.dir
  names : ∀ i j name, s.pc i = .opened name → s.pc j = .opened name → i = j

theorem Invariant.apart {s : State ι} (h : Invariant s) : Apart s where
  opens i j name hi hj := h.free i name hi (h.exists_opened j name hj)
  names := h.names

theorem invariant_start (c : Client) (dir : Finset Name) (stack : ι → Fin nameSize → Byte) :
    Invariant (start c dir stack) := by
  have hcheck : ∀ i, ∃ v, (start c dir stack).pc i = .check v := by
    intro i
    obtain ⟨v, hv, -⟩ := start_spec c (stack i)
    exact ⟨v, by simp [start, hv]⟩
  have hfopen : ∀ i name, (start c dir stack).pc i ≠ .fopen name := by
    intro i name
    obtain ⟨v, hv⟩ := hcheck i
    simp [hv]
  have hopened : ∀ i name, (start c dir stack).pc i ≠ .opened name := by
    intro i name
    obtain ⟨v, hv⟩ := hcheck i
    simp [hv]
  exact ⟨fun i _ name hi => absurd hi (hfopen i name), fun i name hi => absurd hi (hfopen i name),
    fun i name hi => absurd hi (hopened i name), fun i _ name hi => absurd hi (hopened i name)⟩

variable [DecidableEq ι]

/-- A step of one client: `fopen(name, "wb")` creates the file or empties it. -/
def step (c : Client) (s : State ι) (i : ι) : Option (State ι) :=
  match s.pc i with
  | .check v =>
    (text v.newFileName).map fun name =>
      if name ∈ s.dir then
        { s with pc := Function.update s.pc i ((c.again v).elim .overrun .check) }
      else { s with pc := Function.update s.pc i (.fopen name) }
  | .fopen name =>
    some { dir := insert name s.dir, pc := Function.update s.pc i (.opened name) }
  | .opened _ | .overrun => none

/-- Everything a step of a client can do. -/
inductive Move (c : Client) (s : State ι) (i : ι) : State ι → Prop where
  | again (v : Vars) (name : Name) (pc : s.pc i = .check v)
      (checked : text v.newFileName = some name) (taken : name ∈ s.dir) (next : Pc)
      (loops : next = (c.again v).elim .overrun .check) :
      Move c s i { s with pc := Function.update s.pc i next }
  | leave (name : Name) (free : freeName s i = some name) :
      Move c s i { s with pc := Function.update s.pc i (.fopen name) }
  | fopen (name : Name) (pc : s.pc i = .fopen name) :
      Move c s i { dir := insert name s.dir, pc := Function.update s.pc i (.opened name) }

theorem step_move {c : Client} {s t : State ι} {i : ι} (h : step c s i = some t) :
    Move c s i t := by
  unfold step at h
  split at h
  next v hpc =>
    obtain ⟨name, hname, rfl⟩ := Option.map_eq_some_iff.mp h
    split
    next htaken => exact .again v name hpc hname htaken _ rfl
    next hfree => exact .leave name (freeName_eq_some_iff.mpr ⟨v, hpc, hname, hfree⟩)
  next name hpc =>
    cases h
    exact .fopen name hpc
  next => cases h
  next => cases h

/-- A client changes its place; what it claims and what it has opened are what they say. -/
theorem pc_update_iff {s : State ι} {i j : ι} {p q : Pc} :
    Function.update s.pc i p j = q ↔ (j = i ∧ p = q) ∨ (j ≠ i ∧ s.pc j = q) := by
  by_cases hj : j = i
  · subst hj
    simp
  · simp [hj]

/-- A client that goes back to its check claims and opens nothing. -/
theorem Invariant.again {s : State ι} (h : Invariant s) (i : ι) {next : Pc}
    (hnext : ∀ name, next ≠ .fopen name ∧ next ≠ .opened name) :
    Invariant { s with pc := Function.update s.pc i next } := by
  have hfopen : ∀ j name, Function.update s.pc i next j = .fopen name → s.pc j = .fopen name :=
    fun j name hj => ((pc_update_iff.mp hj).resolve_left fun hn => (hnext name).1 hn.2).2
  have hopened : ∀ j name, Function.update s.pc i next j = .opened name →
      s.pc j = .opened name :=
    fun j name hj => ((pc_update_iff.mp hj).resolve_left fun hn => (hnext name).2 hn.2).2
  exact ⟨fun j k n hj hk => h.claimed j k n (hfopen j n hj) (hfopen k n hk),
    fun j n hj => h.free j n (hfopen j n hj),
    fun j n hj => h.exists_opened j n (hopened j n hj),
    fun j k n hj hk => h.names j k n (hopened j n hj) (hopened k n hk)⟩

/-- A client claims a name that is free and that nobody else has claimed. -/
theorem Invariant.claim {s : State ι} (h : Invariant s) (i : ι) {name : Name}
    (hnew : name ∉ s.dir) (hunclaimed : ∀ j, s.pc j ≠ .fopen name) :
    Invariant { s with pc := Function.update s.pc i (.fopen name) } := by
  have hopened : ∀ j n, Function.update s.pc i (.fopen name) j = .opened n →
      s.pc j = .opened n :=
    fun j n hj => ((pc_update_iff.mp hj).resolve_left (by simp)).2
  refine ⟨fun j k n hj hk => ?_, fun j n hj => ?_,
    fun j n hj => h.exists_opened j n (hopened j n hj),
    fun j k n hj hk => h.names j k n (hopened j n hj) (hopened k n hk)⟩
  · rcases pc_update_iff.mp hj with ⟨hji, hn⟩ | ⟨-, hj'⟩ <;>
      rcases pc_update_iff.mp hk with ⟨hki, hn'⟩ | ⟨-, hk'⟩
    · exact hji.trans hki.symm
    · cases hn
      exact absurd hk' (hunclaimed k)
    · cases hn'
      exact absurd hj' (hunclaimed j)
    · exact h.claimed j k n hj' hk'
  · rcases pc_update_iff.mp hj with ⟨-, hn⟩ | ⟨-, hj'⟩
    · cases hn
      exact hnew
    · exact h.free j n hj'

/-- A client creates the file whose name it has claimed. -/
theorem Invariant.create {s : State ι} (h : Invariant s) {i : ι} {name : Name}
    (hpc : s.pc i = .fopen name) :
    Invariant { dir := insert name s.dir, pc := Function.update s.pc i (.opened name) } := by
  have hfree := h.free i name hpc
  have hfopen : ∀ j n, Function.update s.pc i (.opened name) j = .fopen n →
      j ≠ i ∧ s.pc j = .fopen n :=
    fun j n hj => (pc_update_iff.mp hj).resolve_left (by simp)
  refine ⟨fun j k n hj hk => h.claimed j k n (hfopen j n hj).2 (hfopen k n hk).2,
    fun j n hj => ?_, fun j n hj => ?_, fun j k n hj hk => ?_⟩
  · obtain ⟨hne, hj'⟩ := hfopen j n hj
    rw [Finset.mem_insert, not_or]
    refine ⟨?_, h.free j n hj'⟩
    rintro rfl
    exact hne (h.claimed j i n hj' hpc)
  · rcases pc_update_iff.mp hj with ⟨-, hn⟩ | ⟨-, hj'⟩
    · cases hn
      exact Finset.mem_insert_self name s.dir
    · exact Finset.mem_insert_of_mem (h.exists_opened j n hj')
  · -- what another client has opened exists already
    rcases pc_update_iff.mp hj with ⟨hji, hn⟩ | ⟨-, hj'⟩ <;>
      rcases pc_update_iff.mp hk with ⟨hki, hn'⟩ | ⟨-, hk'⟩
    · exact hji.trans hki.symm
    · cases hn
      exact absurd (h.exists_opened k name hk') hfree
    · cases hn'
      exact absurd (h.exists_opened j name hj') hfree
    · exact h.names j k n hj' hk'

theorem invariant_step {c : Client} (s : State ι) (i : ι) (t : State ι) (h : Invariant s)
    (hu : Unclaimed s i) (hs : step c s i = some t) : Invariant t := by
  cases step_move hs with
  | again v name pc checked taken next loops =>
    refine h.again i fun name => ?_
    rw [loops]
    cases c.again v <;> simp
  | leave name free =>
    obtain ⟨-, -, -, hnew⟩ := freeName_eq_some_iff.mp free
    exact h.claim i hnew (hu name free)
  | fopen name pc => exact h.create pc

/-- As long as no client finds a name free that another one is about to open, all of them get
files of their own. -/
theorem apart_throughout (c : Client) (dir : Finset Name) (stack : ι → Fin nameSize → Byte)
    (schedule : List ι) (h : Along (step c) Unclaimed (start c dir stack) schedule) :
    Throughout (step c) Apart (start c dir stack) schedule :=
  (throughout_of_step invariant_step (invariant_start c dir stack) h).mono fun _ hI => hI.apart

/-- One client after the other: receive.dat and receive0.dat. -/
theorem one_after_the_other_apart :
    Throughout (step .week11) Apart (start .week11 ∅ fun (_ : Fin 2) _ => 0) [0, 0, 1, 1, 1] :=
  apart_throughout .week11 ∅ _ _ (by decide +kernel)

/-- Both clients check before one of them has created the file. -/
theorem both_open_default : ¬ ∀ schedule : List (Fin 2),
    Throughout (step .week11) Apart (start .week11 ∅ fun _ _ => 0) schedule := by
  intro h
  have hlast := (h [0, 1, 0, 1]).last rfl
  exact absurd (hlast.names 0 1 (ascii "receive.dat") rfl rfl) (by decide)

/-- The condition is sharp: two clients that have found the same name free open the same
file, with their own next steps. -/
theorem claimed_twice {c : Client} {s : State ι} {i j : ι} {name : Name}
    (hfree : freeName s i = some name) (hj : s.pc j = .fopen name) :
    ∃ t, run (step c) s [i, j, i] = some t ∧ ¬ Apart t := by
  obtain ⟨v, hi, htext, hnew⟩ := freeName_eq_some_iff.mp hfree
  have hne : j ≠ i := by
    rintro rfl
    simp [hi] at hj
  refine ⟨_, by simp [run, step, hi, hj, htext, hnew, hne, Ne.symm hne]; rfl, fun h => ?_⟩
  exact hne (h.names j i name (by simp [hne]) (by simp))

end NetworkProgramming.FileRace
