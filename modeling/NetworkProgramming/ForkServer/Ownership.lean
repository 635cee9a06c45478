import NetworkProgramming.Library.Transition
import NetworkProgramming.ForkServer.Tables

/-!
# Who holds which connection

A connection ends for the client when nobody holds its descriptor any more. The
parent closes its copy after every `fork`, and forks a child while it holds no
other connection.
-/
namespace NetworkProgramming.ForkServer

open Transition

variable {π : Type} {P : Program π} {servSock : Nat} {s t : State π} {k c : Nat} {a : Label}

/-- No service goes back to the loop. -/
def Program.Returns (P : Program π) : Prop := ∀ p n, P.step p n ≠ some .loop

theorem echoService_returns : echoService.Returns := by
  intro p n
  cases p <;> simp only [echoService] <;> (try split) <;> simp

theorem storeService_returns : storeService.Returns := by
  intro p n
  cases p <;> simp only [storeService] <;> (try split) <;> simp

theorem OnlyParent.set (ho : OnlyParent s) {p : Process π} (hp : k ≠ 0 → ¬ InLoop p.pc) :
    OnlyParent (s.set k p) :=
  (Function.forall_update_iff s.procs fun j q => j ≠ 0 → ¬ InLoop q.pc).mpr
    ⟨hp, fun j _ => ho j⟩

/-- With such a service only the parent runs its part of the loop. -/
theorem OnlyParent.step (ho : OnlyParent s) (hreturns : P.Returns)
    (hm : Move P servSock s a t) : OnlyParent t := by
  have hparent : ∀ {k : Nat} {pc : Pc π}, InLoop (s.procs k).pc → k ≠ 0 → ¬ InLoop pc :=
    fun hpc hk => absurd hpc (ho _ hk)
  cases hm with
  | acceptFails => exact ho
  | accept k fd pc => exact ho.set (hparent (by simp [pc, InLoop]))
  | forkFails k pc | parentClose k pc => exact ho.set (hparent (by simp [pc, InLoop]))
  | fork k pc =>
    have hk : OnlyParent (s.set k { s.procs k with pc := .parentClose }) :=
      ho.set (hparent (by simp [pc, InLoop]))
    exact hk.set (k := s.forks) (p := { s.procs k with pc := .closeListener })
      fun _ => by simp [InLoop]
  | closeListener | serve | close => exact ho.set fun _ => by simp [InLoop]
  | loop k n held p pc next => exact absurd next (hreturns p n)
  | exit | kill => exact ho.set fun _ => by simp [Process.exit, InLoop]

/-- No two children have been forked for the same connection, nor is one forked for
a connection that has a child already. -/
structure Owners (s : State π) : Prop where
  distinct : ∀ j k c, j ≠ 0 → k ≠ 0 → (s.procs j).client = some c →
    (s.procs k).client = some c → j = k
  fresh : ∀ k c, (s.procs k).client = some c → c < s.connections
  unforked : (s.procs 0).pc = .fork → ∀ k c, k ≠ 0 → (s.procs 0).client = some c →
    (s.procs k).client ≠ some c

/-- A step that neither accepts nor forks. -/
theorem Owners.set (h : Owners s) {p : Process π} (hclient : p.client = (s.procs k).client)
    (hpc : p.pc ≠ .fork) : Owners (s.set k p) := by
  have hsame : ∀ j, ((s.set k p).procs j).client = (s.procs j).client :=
    (Function.forall_update_iff s.procs fun j q => q.client = (s.procs j).client).mpr
      ⟨hclient, fun _ _ => rfl⟩
  refine ⟨?_, ?_, ?_⟩
  · intro i j c hi hj
    rw [hsame, hsame]
    exact h.distinct i j c hi hj
  · intro j c
    rw [hsame]
    exact h.fresh j c
  · intro hf j c hj
    rw [hsame, hsame]
    apply h.unforked _ j c hj
    by_cases hk : 0 = k
    · subst hk
      simp [State.set, hpc] at hf
    · simpa [State.set, Function.update_of_ne hk] using hf

theorem Owners.step (h : Owners s) (ho : OnlyParent s) (htables : Tables servSock s)
    (hm : Move P servSock s a t) : Owners t := by
  cases hm with
  | acceptFails => exact h
  | accept k fd pc =>
    obtain rfl := ho.eq_zero (k := k) (by simp [pc, InLoop])
    -- the number of the new connection is nobody's
    have hnew : ∀ j c, j ≠ 0 → (s.procs j).client = some c → c ≠ s.connections :=
      fun j c _ hc => Nat.ne_of_lt (h.fresh j c hc)
    refine ⟨fun i j c hi hj => ?_, fun j c => ?_, fun _ j c hj => ?_⟩
    · simpa [State.set, hi, hj] using h.distinct i j c hi hj
    · by_cases hj : j = 0
      · subst hj
        simp only [State.set, Function.update_self, Option.some.injEq]
        omega
      · simp only [State.set, Function.update_of_ne hj]
        intro hc
        exact Nat.lt_succ_of_lt (h.fresh j c hc)
    · simp only [State.set, Function.update_self, Function.update_of_ne hj, Option.some.injEq]
      rintro rfl hc
      exact hnew j _ hj hc rfl
  | forkFails | parentClose => exact h.set rfl (by simp)
  | fork k pc =>
    obtain rfl := ho.eq_zero (k := k) (by simp [pc, InLoop])
    have hforks : s.forks ≠ 0 := Nat.ne_of_gt htables.born
    have hnew : ∀ j, j ≠ 0 → ∀ c, (s.procs 0).client = some c → (s.procs j).client ≠ some c :=
      fun j hj c => h.unforked pc j c hj
    refine ⟨fun i j c hi hj => ?_, fun j c => ?_, fun hf => ?_⟩
    · by_cases hi' : i = s.forks
      · by_cases hj' : j = s.forks
        · exact fun _ _ => hi'.trans hj'.symm
        · simp only [State.set, hi', Function.update_self, Function.update_of_ne hj',
            Function.update_of_ne hj]
          exact fun hc hc' => absurd hc' (hnew j hj c hc)
      · by_cases hj' : j = s.forks
        · simp only [State.set, hj', Function.update_self, Function.update_of_ne hi',
            Function.update_of_ne hi]
          exact fun hc hc' => absurd hc (hnew i hi c hc')
        · simp only [State.set, Function.update_of_ne hi', Function.update_of_ne hj',
            Function.update_of_ne hi, Function.update_of_ne hj]
          exact h.distinct i j c hi hj
    · by_cases hj' : j = s.forks
      · simpa [State.set, hj'] using h.fresh 0 c
      · by_cases hj : j = 0
        · subst hj
          simpa [State.set, Function.update_of_ne hj'] using h.fresh 0 c
        · simpa [State.set, Function.update_of_ne hj', Function.update_of_ne hj]
            using h.fresh j c
    · simp [State.set, Function.update_of_ne (Ne.symm hforks)] at hf
  | closeListener | serve | close => exact h.set rfl (by simp)
  | loop | exit | kill => exact h.set rfl (by simp [Process.exit])

/-- How the calls of `fork` went, one for each connection. -/
def forkResults (as : List Label) : List Bool :=
  as.filterMap fun
    | .fork _ ok => some ok
    | _ => none

/-- The calls of `accept` that gave a connection. -/
def accepted (as : List Label) : List Nat :=
  as.filterMap fun
    | .accept _ fd => fd
    | _ => none

/-- What the calls so far have made of the connections: a connection has a child exactly if
its `fork` succeeded. -/
structure Forked (as : List Label) (s : State π) : Prop where
  count : s.connections = (accepted as).length
  waiting : (s.procs 0).pc = .fork →
    (s.procs 0).client = some (forkResults as).length ∧
      s.connections = (forkResults as).length + 1
  settled : (s.procs 0).pc ≠ .fork → s.connections = (forkResults as).length
  child : ∀ c, (forkResults as)[c]? = some true → ∃ k, k ≠ 0 ∧ (s.procs k).client = some c
  refused : ∀ c, (forkResults as)[c]? = some false → ∀ k, k ≠ 0 → (s.procs k).client ≠ some c

theorem forkResults_concat (as : List Label) (a : Label) :
    forkResults (as ++ [a]) = forkResults as ++ forkResults [a] :=
  List.filterMap_append

theorem accepted_concat (as : List Label) (a : Label) :
    accepted (as ++ [a]) = accepted as ++ accepted [a] :=
  List.filterMap_append

theorem getElem?_concat_iff {α : Type} {l : List α} {x y : α} {c : Nat} :
    (l ++ [x])[c]? = some y ↔ l[c]? = some y ∨ c = l.length ∧ x = y := by
  rw [List.getElem?_append]
  split
  next hlt => simp [Nat.ne_of_lt hlt]
  next hle =>
    rw [List.getElem?_eq_none (Nat.le_of_not_lt hle), List.getElem?_singleton]
    by_cases hc : c = l.length
    · simp [hc]
    · simp [hc, show c - l.length ≠ 0 by omega]

/-- The two histories grow by what the label says. -/
theorem Forked.set {as : List Label} (h : Forked as s) (hnone : accepted [a] = [])
    (hfork : forkResults [a] = []) {p : Process π} (hclient : p.client = (s.procs k).client)
    (hpc : k = 0 → (s.procs 0).pc ≠ .fork ∧ p.pc ≠ .fork) :
    Forked (as ++ [a]) (s.set k p) := by
  have hsame : ∀ j, ((s.set k p).procs j).client = (s.procs j).client :=
    (Function.forall_update_iff s.procs fun j q => q.client = (s.procs j).client).mpr
      ⟨hclient, fun _ _ => rfl⟩
  have hparent : ((s.set k p).procs 0).pc = .fork ↔ (s.procs 0).pc = .fork := by
    by_cases hk : k = 0
    · subst hk
      simp [State.set, hpc rfl]
    · simp [State.set, Function.update_of_ne (Ne.symm hk)]
  have haccepted : accepted (as ++ [a]) = accepted as := by
    rw [accepted_concat, hnone, List.append_nil]
  have hresults : forkResults (as ++ [a]) = forkResults as := by
    rw [forkResults_concat, hfork, List.append_nil]
  constructor
  · rw [haccepted]
    exact h.count
  · rw [hresults, hparent, hsame]
    exact h.waiting
  · rw [hresults, Ne, hparent]
    exact h.settled
  · simpa only [hresults, hsame] using h.child
  · simpa only [hresults, hsame] using h.refused

theorem Forked.step {as : List Label} (h : Forked as s) (ho : OnlyParent s)
    (htables : Tables servSock s) (howners : Owners s) (hm : Move P servSock s a t) :
    Forked (as ++ [a]) t := by
  have hchild : ∀ {k : Nat} {held : Bool} {p : π}, (s.procs k).pc = .serve held p → k ≠ 0 :=
    fun hpc => htables.ne_zero (by simp [hpc, InLoop])
  cases hm with
  | acceptFails k pc =>
    have hsame : s.set k (s.procs k) = s := by simp [State.set]
    have hset := h.set (a := .accept k none) (k := k) rfl rfl rfl fun hk => by simp [← hk, pc]
    rwa [hsame] at hset
  | accept k fd pc =>
    obtain rfl := ho.eq_zero (k := k) (by simp [pc, InLoop])
    have hsettled := h.settled (by simp [pc])
    have hresults : forkResults (as ++ [.accept 0 (some fd)]) = forkResults as := by
      simp [forkResults]
    have haccepted : accepted (as ++ [.accept 0 (some fd)]) = accepted as ++ [fd] := by
      simp [accepted]
    constructor
    · simp [haccepted, h.count]
    · simp [hresults, State.set, hsettled]
    · simp [State.set]
    · intro c hc
      obtain ⟨k, hk, hkc⟩ := h.child c (hresults ▸ hc)
      exact ⟨k, hk, by simpa [State.set, hk] using hkc⟩
    · intro c hc k hk
      simpa [State.set, hk] using h.refused c (hresults ▸ hc) k hk
  | forkFails k pc =>
    obtain rfl := ho.eq_zero (k := k) (by simp [pc, InLoop])
    obtain ⟨hclient, hcount⟩ := h.waiting pc
    have hresults : forkResults (as ++ [.fork 0 false]) = forkResults as ++ [false] := by
      simp [forkResults]
    have haccepted : accepted (as ++ [.fork 0 false]) = accepted as := by simp [accepted]
    constructor
    · rw [haccepted]
      exact h.count
    · simp [State.set]
    · simp [hresults, State.set, hcount]
    · intro c hc
      rw [hresults, getElem?_concat_iff] at hc
      obtain ⟨k, hk, hkc⟩ := h.child c (hc.resolve_right (by simp))
      exact ⟨k, hk, by simpa [State.set, hk] using hkc⟩
    · intro c hc k hk
      rw [hresults, getElem?_concat_iff] at hc
      have hno : (s.procs k).client ≠ some c := by
        rcases hc with hc | ⟨rfl, -⟩
        · exact h.refused c hc k hk
        · exact howners.unforked pc k _ hk hclient
      simpa [State.set, hk] using hno
  | fork k pc =>
    obtain rfl := ho.eq_zero (k := k) (by simp [pc, InLoop])
    obtain ⟨hclient, hcount⟩ := h.waiting pc
    have hforks : s.forks ≠ 0 := Nat.ne_of_gt htables.born
    have hresults : forkResults (as ++ [.fork 0 true]) = forkResults as ++ [true] := by
      simp [forkResults]
    have haccepted : accepted (as ++ [.fork 0 true]) = accepted as := by simp [accepted]
    have hunborn : (s.procs s.forks).client = none := by
      rw [htables.unborn s.forks (Nat.le_refl _)]
      rfl
    constructor
    · rw [haccepted]
      exact h.count
    · simp [State.set, Function.update_of_ne (Ne.symm hforks)]
    · simp [hresults, State.set, hcount]
    · intro c hc
      rw [hresults, getElem?_concat_iff] at hc
      rcases hc with hc | ⟨rfl, -⟩
      · obtain ⟨k, hk, hkc⟩ := h.child c hc
        have hne : k ≠ s.forks := by
          rintro rfl
          simp [hunborn] at hkc
        exact ⟨k, hk, by simpa [State.set, hk, hne] using hkc⟩
      · exact ⟨s.forks, hforks, by simpa [State.set] using hclient⟩
    · intro c hc k hk
      rw [hresults, getElem?_concat_iff] at hc
      have hc := hc.resolve_right (by simp)
      by_cases hne : k = s.forks
      · subst hne
        have hlt : c < (forkResults as).length := (List.getElem?_eq_some_iff.mp hc).1
        simp only [State.set, Function.update_self, hclient, ne_eq, Option.some.injEq]
        omega
      · simpa [State.set, hk, hne] using h.refused c hc k hk
  | parentClose k pc => exact h.set rfl rfl rfl fun hk => by simp [← hk, pc]
  | closeListener k pc =>
    have hk := htables.ne_zero (k := k) (by simp [pc, InLoop])
    exact h.set rfl rfl rfl fun h0 => absurd h0 hk
  | serve k n held p q pc | close k n held p q pc =>
    exact h.set rfl rfl rfl fun h0 => absurd h0 (hchild pc)
  | loop k n held p pc | exit k n held p pc =>
    exact h.set rfl rfl rfl fun h0 => absurd h0 (hchild pc)
  | kill k child => exact h.set rfl rfl rfl fun h0 => absurd h0 child

/-- In this step child `k` neither closes its connection nor ends while it has it. -/
def Keeps (P : Program π) (k : Nat) (s : State π) : Label → Prop
  | .serve j n => j = k → ∀ p, (s.procs k).pc = .serve true p → ∃ q, P.step p n = some (.serve q)
  | .kill j => j = k → ¬ HasConn (s.procs k).pc
  | _ => True

/-- Process `k` has its connection, if one was accepted for it. -/
def HasOwn (k : Nat) (s : State π) : Prop :=
  ∀ c, (s.procs k).client = some c → HasConn (s.procs k).pc

/-- Another process has done something. -/
theorem hasOwn_other {k : Nat} (hsame : t.procs k = s.procs k) (hkeeps : Keeps P k s a) :
    HasOwn k t ↔ HasOwn k s ∧ Keeps P k s a := by
  rw [HasOwn, HasOwn, hsame]
  exact (and_iff_left hkeeps).symm

/-- Child `k` has given up what it had. -/
theorem hasOwn_ends {k : Nat} (h : Tables servSock s)
    (hclient : (t.procs k).client = (s.procs k).client) (hpc : ¬ HasConn (t.procs k).pc)
    (hkeeps : Keeps P k s a ↔ ¬ HasConn (s.procs k).pc) :
    HasOwn k t ↔ HasOwn k s ∧ Keeps P k s a := by
  rw [HasOwn, HasOwn, hclient, hkeeps]
  constructor
  · intro hown
    have hnone : ∀ c, (s.procs k).client ≠ some c := fun c hc => hpc (hown c hc)
    refine ⟨fun c hc => absurd hc (hnone c), fun hhas => ?_⟩
    obtain ⟨c, hc, -⟩ := h.client k hhas
    exact hnone c hc
  · rintro ⟨hown, hno⟩ c hc
    exact absurd (hown c hc) hno

theorem hasOwn_step {k : Nat} (h : Tables servSock s) (ho : OnlyParent s) (hk : k ≠ 0)
    (hm : Move P servSock s a t) : HasOwn k t ↔ HasOwn k s ∧ Keeps P k s a := by
  have hparent : ∀ {p : Process π} {n : Nat}, ({ s.set 0 p with connections := n }).procs k =
      s.procs k := fun {p n} => Function.update_of_ne hk _ _
  have hother : ∀ {j : Nat} {p : Process π}, j ≠ k → (s.set j p).procs k = s.procs k :=
    fun hjk => Function.update_of_ne (Ne.symm hjk) _ _
  have hends : ∀ {j : Nat} {n : Int} {held : Bool} {p : π} {q : Process π},
      (s.procs j).pc = .serve held p → (∀ r, P.step p n ≠ some (.serve r)) →
      q.client = (s.procs j).client → ¬ HasConn q.pc →
      (HasOwn k (s.set j q) ↔ HasOwn k s ∧ Keeps P k s (.serve j n)) := by
    intro j n held p q hpc hnext hclient hq
    by_cases hjk : j = k
    · subst hjk
      refine hasOwn_ends h (by simp [State.set, hclient]) (by simpa [State.set] using hq) ?_
      constructor
      · intro hkeeps hhas
        cases held with
        | false => simp [hpc, HasConn] at hhas
        | true =>
          obtain ⟨r, hr⟩ := hkeeps rfl p hpc
          exact hnext r hr
      · intro hno _ p' hp'
        simp [hp', HasConn] at hno
    · exact hasOwn_other (hother hjk) fun he => absurd he hjk
  cases hm with
  | acceptFails => exact hasOwn_other rfl trivial
  | accept j fd pc =>
    obtain rfl := ho.eq_zero (k := j) (by simp [pc, InLoop])
    exact hasOwn_other hparent trivial
  | forkFails j pc | parentClose j pc =>
    obtain rfl := ho.eq_zero (k := j) (by simp [pc, InLoop])
    exact hasOwn_other hparent trivial
  | fork j pc =>
    obtain rfl := ho.eq_zero (k := j) (by simp [pc, InLoop])
    by_cases hnew : k = s.forks
    · have hunborn : (s.procs k).client = none := by
        rw [h.unborn k (Nat.le_of_eq hnew.symm)]
        rfl
      subst hnew
      exact iff_of_true (fun c _ => by simp [State.set, HasConn])
        ⟨fun c hc => by simp [hunborn] at hc, trivial⟩
    · exact hasOwn_other (by simp [State.set, hk, hnew]) trivial
  | closeListener j pc =>
    by_cases hjk : j = k
    · subst hjk
      exact iff_of_true (fun c _ => by simp [State.set, HasConn])
        ⟨fun c _ => by simp [pc, HasConn], trivial⟩
    · exact hasOwn_other (hother hjk) trivial
  | serve j n held p q pc next =>
    by_cases hjk : j = k
    · subst hjk
      have hkeeps : Keeps P j s (.serve j n) := by
        intro _ p' hp'
        obtain ⟨-, rfl⟩ := Pc.serve.inj (pc.symm.trans hp')
        exact ⟨q, next⟩
      have hhas : HasConn (.serve held q) ↔ HasConn (s.procs j).pc := by
        rw [pc]
        cases held <;> simp [HasConn]
      rw [and_iff_left hkeeps]
      simp only [HasOwn, State.set, Function.update_self, hhas]
    · exact hasOwn_other (hother hjk) fun he => absurd he hjk
  | close j n held p q pc next | loop j n held p pc next =>
    exact hends pc (by simp [next]) rfl (by simp [HasConn])
  | exit j n held p pc next =>
    exact hends pc (by simp [next]) rfl (by simp [Process.exit, HasConn])
  | kill j child =>
    by_cases hjk : j = k
    · subst hjk
      refine hasOwn_ends h (by simp [State.set, Process.exit])
        (by simp [State.set, Process.exit, HasConn]) ?_
      exact ⟨fun hkeeps => hkeeps rfl, fun hno _ => hno⟩
    · exact hasOwn_other (hother hjk) fun he => absurd he hjk

/-- Who holds what while the parent is at `accept`, behind these calls. -/
structure Owned (P : Program π) (servSock : Nat) (s₀ : State π) (as : List Label) (s : State π) :
    Prop where
  parent : ∀ c, ¬ Holds s 0 c
  one : ∀ c k, Holds s k c → (s.procs k).client = some c ∧ ∀ j, Holds s j c → j = k
  own : ∀ c c' k, Holds s k c → Holds s k c' → c = c'
  /-- Each accepted connection has had its `fork`. -/
  settled : (accepted as).length = (forkResults as).length
  /-- Nobody but the child holds its connection, and the child does until it closes it or ends. -/
  held : ∀ k c, k ≠ 0 → (s.procs k).client = some c → ∀ j, Holds s j c ↔
    j = k ∧ Along (step P servSock) (Keeps P k) s₀ as
  refused : ∀ c, (forkResults as)[c]? = some false → ∀ j, ¬ Holds s j c

/-- What holds behind these calls, wherever the parent is. -/
structure Ownership (P : Program π) (servSock : Nat) (s₀ : State π) (as : List Label)
    (s : State π) : Prop where
  /-- A connection whose `fork` succeeded has a child that was forked for it. -/
  forked : ∀ c, (forkResults as)[c]? = some true → ∃ k, k ≠ 0 ∧ (s.procs k).client = some c
  owned : (s.procs 0).pc = .accept → Owned P servSock s₀ as s

/-- What every step of a server with such a service preserves. -/
structure Invariant (servSock : Nat) (as : List Label) (s : State π) : Prop where
  tables : Tables servSock s
  only : OnlyParent s
  owners : Owners s
  forked : Forked as s

theorem Invariant.owned {s₀ : State π} {as : List Label} (h : Invariant servSock as s)
    (hown : ∀ k, k ≠ 0 → (HasOwn k s ↔ Along (step P servSock) (Keeps P k) s₀ as)) :
    Ownership P servSock s₀ as s := by
  refine ⟨h.forked.child, fun hpc => ?_⟩
  have hparent : ∀ c, ¬ Holds s 0 c := by
    intro c
    rw [h.tables.holds_iff]
    simp [hpc, HasConn]
  have hchild : ∀ {j c}, Holds s j c → j ≠ 0 ∧ (s.procs j).client = some c := by
    intro j c hj
    refine ⟨?_, (h.tables.holds_iff.mp hj).2⟩
    rintro rfl
    exact hparent c hj
  refine ⟨hparent, ?_, ?_, ?_, ?_, ?_⟩
  · intro c k hk
    obtain ⟨hk0, hkc⟩ := hchild hk
    refine ⟨hkc, fun j hj => ?_⟩
    obtain ⟨hj0, hjc⟩ := hchild hj
    exact h.owners.distinct j k c hj0 hk0 hjc hkc
  · intro c c' k hk hk'
    have hc := (hchild hk).2
    rw [(hchild hk').2] at hc
    exact (Option.some.inj hc).symm
  · rw [← h.forked.count]
    exact h.forked.settled (by simp [hpc])
  · intro k c hk hc j
    rw [← hown k hk]
    constructor
    · intro hj
      obtain ⟨hj0, hjc⟩ := hchild hj
      obtain rfl := h.owners.distinct j k c hj0 hk hjc hc
      exact ⟨rfl, fun _ _ => (h.tables.holds_iff.mp hj).1⟩
    · rintro ⟨rfl, hhas⟩
      exact h.tables.holds_iff.mpr ⟨hhas c hc, hc⟩
  · intro c hc j hj
    obtain ⟨hj0, hjc⟩ := hchild hj
    exact h.forked.refused c hc j hj0 hjc

theorem invariant_step (hreturns : P.Returns) (as : List Label) (s : State π) (a : Label)
    (t : State π) (h : Invariant servSock as s) (hs : step P servSock s a = some t) :
    Invariant servSock (as ++ [a]) t := by
  have hm := step_move hs
  exact ⟨h.tables.step h.only hm, h.only.step hreturns hm, h.owners.step h.only h.tables hm,
    h.forked.step h.only h.tables h.owners hm⟩

/-- Ownership where a run of a server ends whose service never goes back to the loop. -/
theorem owned_of_returns {s₀ : State π} (hreturns : P.Returns) (hs : Invariant servSock [] s₀)
    {as : List Label} (ht : run (step P servSock) s₀ as = some t) :
    Ownership P servSock s₀ as t := by
  have hnone : ∀ k c, k ≠ 0 → (s₀.procs k).client ≠ some c := by
    intro k c _ hc
    have hlt := hs.owners.fresh k c hc
    simp [hs.forked.count, accepted] at hlt
  refine (run_history (invariant_step hreturns) hs ht).owned fun k hk => ?_
  have hkept := run_kept_iff (I := fun s => Tables servSock s ∧ OnlyParent s) (P := HasOwn k)
    (G := Keeps P k) (fun s a t hI hs => ?_) ⟨hs.tables, hs.only⟩ ht
  · rw [hkept]
    exact and_iff_right fun c hc => absurd hc (hnone k c hk)
  · have hm := step_move hs
    exact ⟨⟨hI.1.step hI.2 hm, hI.2.step hreturns hm⟩, hasOwn_step hI.1 hI.2 hk hm⟩

theorem forked_of_none (hpc : (s.procs 0).pc = .accept) (hconnections : s.connections = 0) :
    Forked [] s :=
  ⟨hconnections, by simp [hpc], fun _ => hconnections, by simp [forkResults],
    by simp [forkResults]⟩

theorem owners_of_none (h : ∀ k, (s.procs k).client = none) : Owners s := by
  constructor <;> simp [h]

theorem invariant_start (servSock : Nat) (opened : List Nat) :
    Invariant servSock [] (start servSock opened : State π) := by
  refine ⟨tables_start servSock opened, fun k hk => ?_, owners_of_none fun k => ?_,
    forked_of_none rfl rfl⟩
  · simp [start, hk, unbornProcess, InLoop]
  · by_cases hk : k = 0 <;> simp [start, hk, unbornProcess, parentProcess]

theorem invariant_startWith (servSock : Nat) (opened : List Nat) (task : π) :
    Invariant servSock [] (startWith servSock opened task) := by
  refine ⟨tables_startWith servSock opened task, fun k hk => ?_, owners_of_none fun k => ?_,
    forked_of_none rfl rfl⟩
  · by_cases h1 : k = 1 <;> simp [startWith, hk, h1, unbornProcess, InLoop]
  · by_cases h1 : k = 1
    · simp [startWith, h1]
    · by_cases hk : k = 0 <;> simp [startWith, h1, hk, unbornProcess, parentProcess]

/-- The state of the chapter 11 server in front of its loop, whether the storage child
could be forked or not. -/
def storeStart (servSock : Nat) (opened : List Nat) (forked : Bool) : State StorePc :=
  if forked then startWith servSock opened (.storage 0) else start servSock opened

/-- In both echo servers, however clients come and go, calls fail and children end:
each connection whose `fork` succeeded has its child, and whenever the parent is at `accept`,
the child holds it until it has closed it or ended, and nobody else holds a connection. -/
theorem owned_throughout (servSock : Nat) (opened : List Nat) (as : List Label) :
    (∀ s, run (step echoService servSock) (start servSock opened) as = some s →
        Ownership echoService servSock (start servSock opened) as s) ∧
      ∀ forked s, run (step storeService servSock) (storeStart servSock opened forked) as =
        some s → Ownership storeService servSock (storeStart servSock opened forked) as s := by
  constructor
  · intro s hs
    exact owned_of_returns echoService_returns (invariant_start servSock opened) hs
  · intro forked s hs
    refine owned_of_returns storeService_returns ?_ hs
    cases forked with
    | false => exact invariant_start servSock opened
    | true => exact invariant_startWith servSock opened (StorePc.storage 0)

/-- Two clients, whose children are `k` and `k + 1`, on the same descriptor of the parent. The
first leaves, and its child closes the connection. -/
def twoClients (k : Nat) : List Label :=
  [.accept 0 none, .accept 0 (some 6), .fork 0 true, .parentClose 0, .accept 0 (some 6),
    .fork 0 true, .closeListener (k + 1), .parentClose 0, .closeListener k, .serve (k + 1) 5,
    .serve k 0, .serve k 0]

/-- In both servers nobody holds the first connection any more, and the second one's child has
its own. -/
theorem owned_two_clients :
    (∃ s, run (step echoService 3) (start 3 []) (twoClients 1) = some s ∧
        Owned echoService 3 (start 3 []) (twoClients 1) s ∧
        (s.procs 1).client = some 0 ∧ (s.procs 1).pc = .serve false .ret ∧ Holds s 2 1) ∧
      ∃ s, run (step storeService 3) (storeStart 3 [4, 5] true) (twoClients 2) = some s ∧
        Owned storeService 3 (storeStart 3 [4, 5] true) (twoClients 2) s ∧
        (s.procs 2).client = some 0 ∧ (s.procs 2).pc = .serve false .ret ∧ Holds s 3 1 :=
  ⟨⟨_, rfl, ((owned_throughout 3 [] (twoClients 1)).1 _ rfl).owned rfl, rfl, rfl, ⟨6, rfl⟩⟩,
    ⟨_, rfl, ((owned_throughout 3 [4, 5] (twoClients 2)).2 true _ rfl).owned rfl, rfl, rfl,
      ⟨6, rfl⟩⟩⟩

end NetworkProgramming.ForkServer
