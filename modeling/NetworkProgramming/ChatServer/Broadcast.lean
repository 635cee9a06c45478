import NetworkProgramming.Library.Mutex
import NetworkProgramming.ChatServer.Threads

/-!
# The order of broadcasts

The mutex keeps the array still while `send_msg` walks over it, so every socket
that stays in the array gets the same messages in the same order.
-/
namespace NetworkProgramming.ChatBroadcast

open Buffer Transition Mutex ChatRegistry ChatMessages ChatThreads

variable {ν ε : Type}

/-- Between `pthread_mutex_lock` and `pthread_mutex_unlock`. -/
def HandlerPc.Inside : HandlerPc → Prop
  | .send _ _ | .sendUnlock | .remove _ => True
  | _ => False

def MainPc.Inside : MainPc → Prop
  | .register | .unlock => True
  | _ => False

/-- The thread is in one of the sections under `mutx`. -/
def Inside (s : State ν) : Tid → Prop
  | .main => MainPc.Inside s.main
  | .handler k => HandlerPc.Inside (s.handlers k).pc

/-- How a step of one handler crosses the borders of the sections. -/
inductive Crossing (self : Tid) (h : Handler) (sh : Shared ν) (h' : Handler)
    (sh' : Shared ν) : Prop where
  | enter (out : ¬ HandlerPc.Inside h.pc) (ins : HandlerPc.Inside h'.pc)
      (free : sh.mutx = none) (taken : sh'.mutx = some self) (same : sh'.registry = sh.registry)
  | leave (ins : HandlerPc.Inside h.pc) (out : ¬ HandlerPc.Inside h'.pc)
      (free : sh'.mutx = none)
  | stay (border : HandlerPc.Inside h'.pc ↔ HandlerPc.Inside h.pc)
      (kept : sh'.mutx = sh.mutx)
      (still : ¬ HandlerPc.Inside h.pc → sh'.registry = sh.registry)

theorem move_crossing {L : SocketLayer ν ε} {argument : Int} {self : Tid}
    {h h' : Handler} {sh sh' : Shared ν} (hm : HandlerMove L argument self h sh h' sh') :
    Crossing self h sh h' sh' := by
  cases hm with
  | sendLock _ _ _ free => exact .enter id trivial free rfl rfl
  | removeLock _ _ free => exact .enter id trivial free rfl rfl
  | sendUnlock | removeUnlock => exact .leave trivial id rfl
  | start | write | sigpipe | sendDone | close => exact .stay Iff.rfl rfl fun _ => rfl
  | remove => exact .stay Iff.rfl rfl fun h => absurd trivial h

/-- While somebody else has the mutex, a handler outside the sections changes no entry, and
touches the sockets only to close its own. -/
theorem outside_move {L : SocketLayer ν ε} {argument : Int} {self : Tid} {h h' : Handler}
    {sh sh' : Shared ν} (hm : HandlerMove L argument self h sh h' sh')
    (hout : ¬ HandlerPc.Inside h.pc) (hheld : sh.mutx ≠ none) :
    sh'.mutx = sh.mutx ∧ sh'.registry = sh.registry ∧
      (sh'.net = sh.net ∨ h.pc = .close ∧ sh'.net = L.close sh.net h.clntSock) := by
  cases hm with
  | start => exact ⟨rfl, rfl, .inl rfl⟩
  | sendLock _ _ _ free | removeLock _ _ free => exact absurd free hheld
  | close => exact ⟨rfl, rfl, .inr ⟨rfl, rfl⟩⟩
  | _ => exact absurd trivial hout

/-- The owner of the mutex is the thread inside; a thread that is not created has
not begun; the index of a broadcast is not negative. -/
structure Guarded (s : State ν) : Prop where
  exclusive : Exclusive s.shared.mutx (Inside s)
  unborn : ∀ k, s.created ≤ k → (s.handlers k).pc = .unborn
  index : ∀ k msg i, (s.handlers k).pc = .send msg i → 0 ≤ i

theorem guarded_start (net : ν) : Guarded (start net) where
  exclusive := by
    apply Exclusive.idle
    intro t
    cases t <;> exact id
  unborn := fun _ _ => rfl
  index := by simp [start]

/-- Who broadcasts owns the mutex. -/
theorem Guarded.sender {s : State ν} (hg : Guarded s) {k : Nat} {msg : List Byte} {i : Int}
    (hk : (s.handlers k).pc = .send msg i) : s.shared.mutx = some (.handler k) :=
  (hg.exclusive (.handler k)).mp (by simp [Inside, hk, HandlerPc.Inside])

/-- While a handler is inside, the others are outside the sections. -/
theorem Guarded.others_outside {s : State ν} (hg : Guarded s) {j k : Nat}
    (hj : HandlerPc.Inside (s.handlers j).pc) (hne : j ≠ k) :
    ¬ HandlerPc.Inside (s.handlers k).pc := by
  intro hin
  have hown := ((hg.exclusive (.handler k)).mp hin).symm.trans ((hg.exclusive (.handler j)).mp hj)
  exact hne (by simpa using hown.symm)

/-- While `main` changes the array, no handler is inside. -/
theorem Guarded.outside_of_main {s : State ν} (hg : Guarded s) (hm : MainPc.Inside s.main)
    (k : Nat) : ¬ HandlerPc.Inside (s.handlers k).pc := by
  intro hin
  have hown := (hg.exclusive (.handler k)).mp hin
  rw [(hg.exclusive .main).mp hm] at hown
  cases hown

/-- The index of a broadcast counts up from 0. -/
theorem move_index {L : SocketLayer ν ε} {argument : Int} {self : Tid} {h h' : Handler}
    {sh sh' : Shared ν} (hm : HandlerMove L argument self h sh h' sh')
    (hi : ∀ msg i, h.pc = .send msg i → 0 ≤ i) : ∀ msg i, h'.pc = .send msg i → 0 ≤ i := by
  intro msg i he
  cases hm with
  | sendLock =>
    cases he
    exact Int.le_refl 0
  | write _ j =>
    cases he
    have := hi msg j rfl
    omega
  | sigpipe => exact hi msg i he
  | _ => cases he

/-- One handler changes; the mutex answers for the border it crosses. -/
theorem Guarded.update {s : State ν} (hg : Guarded s) {k : Nat} {h' : Handler}
    (sh : Shared ν) (hborn : (s.handlers k).pc ≠ .unborn)
    (hx : Exclusive sh.mutx
      (Inside { s with shared := sh, handlers := Function.update s.handlers k h' }))
    (hi : ∀ msg i, h'.pc = .send msg i → 0 ≤ i) :
    Guarded { s with shared := sh, handlers := Function.update s.handlers k h' } where
  exclusive := hx
  unborn := by
    apply (Function.forall_update_iff s.handlers
      fun j x => s.created ≤ j → x.pc = .unborn).mpr
    exact ⟨fun hk => absurd (hg.unborn k hk) hborn, fun j _ => hg.unborn j⟩
  index := by
    apply (Function.forall_update_iff s.handlers
      fun _ x => ∀ msg i, x.pc = .send msg i → 0 ≤ i).mpr
    exact ⟨hi, fun j _ => hg.index j⟩

theorem inside_update (s : State ν) (k : Nat) (h' : Handler) (sh : Shared ν) :
    Inside { s with shared := sh, handlers := Function.update s.handlers k h' } (.handler k) ↔
      HandlerPc.Inside h'.pc := by
  simp [Inside]

theorem inside_update_of_ne (s : State ν) {k : Nat} (h' : Handler) (sh : Shared ν) {u : Tid}
    (hu : u ≠ .handler k) :
    Inside { s with shared := sh, handlers := Function.update s.handlers k h' } u ↔
      Inside s u := by
  cases u with
  | main => rfl
  | handler j =>
    have hjk : j ≠ k := fun h => hu (h ▸ rfl)
    simp [Inside, Function.update_of_ne hjk]

theorem Guarded.handler {s : State ν} {L : SocketLayer ν ε} (hg : Guarded s) {k : Nat}
    {h' : Handler} {sh : Shared ν}
    (hm : HandlerMove L s.clntSock (.handler k) (s.handlers k) s.shared h' sh) :
    Guarded { s with shared := sh, handlers := Function.update s.handlers k h' } := by
  have hborn : (s.handlers k).pc ≠ .unborn := by
    intro hu
    generalize s.handlers k = h at hm hu
    cases hm <;> cases hu
  have hothers := fun (u : Tid) (hu : u ≠ .handler k) => inside_update_of_ne s h' sh hu
  refine hg.update sh hborn ?_ (move_index hm (hg.index k))
  cases move_crossing hm with
  | enter out ins free taken =>
    rw [taken]
    exact (free ▸ hg.exclusive).acquire ((inside_update s k h' sh).mpr ins) hothers
  | leave ins out free =>
    rw [free]
    exact hg.exclusive.release (t := .handler k) ins
      (fun h => out ((inside_update s k h' sh).mp h)) hothers
  | stay border kept =>
    rw [kept]
    apply hg.exclusive.keep
    intro u
    by_cases hu : u = .handler k
    · subst hu
      exact (inside_update s k h' sh).trans border
    · exact hothers u hu

/-- Every step keeps the sections of the threads apart. -/
theorem guarded_step {L : SocketLayer ν ε} (s : State ν) (a : Label ε) (t : State ν)
    (hg : Guarded s) (hs : step L s a = some t) : Guarded t := by
  cases (step_move hs).2 with
  | handler k h' sh moved => exact hg.handler moved
  | read k res h' stepped =>
    obtain ⟨hpc, -, hpc'⟩ := readStep_spec stepped
    have hout : ¬ HandlerPc.Inside h'.pc := by
      rcases hpc' with hpc' | ⟨msg, hpc'⟩ <;> simp [hpc', HandlerPc.Inside]
    refine hg.update s.shared (by simp [hpc]) ?_ ?_
    · apply hg.exclusive.keep
      intro u
      by_cases hu : u = .handler k
      · subst hu
        refine iff_of_false (fun h => hout ((inside_update s k h' s.shared).mp h)) ?_
        simp [Inside, hpc, HandlerPc.Inside]
      · exact inside_update_of_ne s h' s.shared hu
    · intro msg i he
      rcases hpc' with hpc' | ⟨msg, hpc'⟩ <;> simp [hpc'] at he
  | accept fd _ accepted =>
    obtain ⟨hm, sh, rfl, -, hmutx, -, -⟩ := acceptStep_spec accepted
    refine ⟨?_, hg.unborn, hg.index⟩
    simp only [hmutx]
    apply hg.exclusive.keep
    intro u
    cases u with
    | main => simp [Inside, MainPc.Inside, hm]
    | handler k => rfl
  | main _ moved =>
    have hothers : ∀ (sh : Shared ν) (pc : MainPc) (u : Tid), u ≠ .main →
        (Inside { s with shared := sh, main := pc } u ↔ Inside s u) := by
      intro sh pc u hu
      cases u with
      | main => exact absurd rfl hu
      | handler k => rfl
    cases moved with
    | lock pc free =>
      exact ⟨(free ▸ hg.exclusive).acquire trivial (hothers _ _), hg.unborn, hg.index⟩
    | register pc r =>
      refine ⟨hg.exclusive.keep fun u => ?_, hg.unborn, hg.index⟩
      cases u with
      | main => simp [Inside, MainPc.Inside, pc]
      | handler k => rfl
    | unlock pc =>
      have hin : Inside s .main := by simp [Inside, MainPc.Inside, pc]
      exact ⟨hg.exclusive.release hin id (hothers _ _), hg.unborn, hg.index⟩
    | create pc =>
      have hnew := hg.unborn s.created (Nat.le_refl _)
      refine ⟨hg.exclusive.keep fun u => ?_, ?_, ?_⟩
      · cases u with
        | main => simp [Inside, MainPc.Inside, pc]
        | handler j =>
          by_cases hj : j = s.created
          · simp [Inside, hj, hnew, HandlerPc.Inside]
          · simp [Inside, Function.update_of_ne hj]
      · apply (Function.forall_update_iff s.handlers
          fun j x => s.created + 1 ≤ j → x.pc = .unborn).mpr
        exact ⟨fun hle => absurd hle (by omega), fun j _ hle => hg.unborn j (by omega)⟩
      · apply (Function.forall_update_iff s.handlers
          fun _ x => ∀ msg i, x.pc = .send msg i → 0 ≤ i).mpr
        exact ⟨by simp, fun j _ => hg.index j⟩
  | peer e net moved => exact ⟨hg.exclusive, hg.unborn, hg.index⟩

/-- The socket and the message of a `write` that goes through in this step. -/
def handlerWrites (L : SocketLayer ν ε) (h : Handler) (sh : Shared ν) :
    List (Int × List Byte) :=
  match h.pc with
  | .send msg i =>
    if i < sh.registry.clntCnt then
      (load sh.registry i).elim [] fun sock =>
        match L.write sh.net sock msg with
        | .sent _ => [(sock, msg)]
        | .blocked | .sigpipe => []
    else []
  | _ => []

/-- The message whose broadcast begins when `send_msg` takes the mutex. -/
def handlerBegins (h : Handler) : List (List Byte) :=
  match h.pc with
  | .sendLock msg => [msg]
  | _ => []

def messagesTo (a : Int) (ws : List (Int × List Byte)) : List (List Byte) :=
  ws.filterMap fun w => if w.1 = a then some w.2 else none

def stepWritesTo (L : SocketLayer ν ε) (a : Int) (s : State ν) : Label ε → List (List Byte)
  | .handler k => messagesTo a (handlerWrites L (s.handlers k) s.shared)
  | _ => []

def stepBegins (s : State ν) : Label ε → List (List Byte)
  | .handler k => handlerBegins (s.handlers k)
  | _ => []

/-- The messages written to a socket during a run, in order. -/
def writesTo (L : SocketLayer ν ε) (a : Int) (s : State ν) (as : List (Label ε)) :
    List (List Byte) :=
  trace (step L) (stepWritesTo L a) s as

/-- The messages whose broadcast begins during a run, in order. -/
def broadcasts (L : SocketLayer ν ε) (s : State ν) (as : List (Label ε)) :
    List (List Byte) :=
  trace (step L) stepBegins s as

def OccursOnce (a : Int) (s : State ν) : Prop := (entries s.shared.registry).count a = 1

instance (a : Int) : DecidablePred (OccursOnce (ν := ν) a) :=
  fun _ => inferInstanceAs (Decidable (_ = _))

/-- What a handler at this point still has to write to the socket. -/
def handlerOwes (a : Int) (r : Registry) : HandlerPc → List (List Byte)
  | .send msg i => if a ∈ (entries r).drop i.toNat then [msg] else []
  | _ => []

/-- What the broadcast under way still has to write to the socket. -/
def owed (a : Int) (s : State ν) : List (List Byte) :=
  match s.shared.mutx with
  | some (.handler k) => handlerOwes a s.shared.registry (s.handlers k).pc
  | _ => []

theorem handlerOwes_outside (a : Int) (r : Registry) {pc : HandlerPc}
    (h : ¬ HandlerPc.Inside pc) : handlerOwes a r pc = [] := by
  cases pc with
  | send => exact absurd trivial h
  | _ => rfl

/-- The broadcast loop takes the next entry of the array. -/
theorem entries_drop (r : Registry) {i dest : Int} (h0 : 0 ≤ i) (hi : i < r.clntCnt)
    (hload : load r i = some dest) :
    (entries r).drop i.toNat = dest :: (entries r).drop (i + 1).toNat := by
  have hdest : r.clntSocks i = dest :=
    Option.some.inj (Option.ite_none_right_eq_some.mp hload).2
  have hlt : i.toNat < (entries r).length := by simp only [entries_length]; omega
  have hnext : (i + 1).toNat = i.toNat + 1 := by omega
  rw [List.drop_eq_getElem_cons hlt, entries_getElem, hnext, Int.toNat_of_nonneg h0, hdest]

/-- A step of a handler writes what it owed, or owes what it begins. -/
theorem move_balance {L : SocketLayer ν ε} {argument : Int} {self : Tid} {h h' : Handler}
    {sh sh' : Shared ν} {a : Int} (hm : HandlerMove L argument self h sh h' sh')
    (hi : ∀ msg i, h.pc = .send msg i → 0 ≤ i) (ha : (entries sh.registry).count a = 1) :
    messagesTo a (handlerWrites L h sh) ++ handlerOwes a sh'.registry h'.pc =
      handlerOwes a sh.registry h.pc ++ handlerBegins h := by
  cases hm with
  | sendLock =>
    have hmem : a ∈ entries sh.registry := List.count_pos_iff.mp (by omega)
    simp [handlerWrites, messagesTo, handlerOwes, handlerBegins, hmem]
  | write msg i sock dest _ net inside loaded sent =>
    have hdrop := entries_drop sh.registry (hi msg i rfl) inside loaded
    have hw : handlerWrites L ⟨.send msg i, sock⟩ sh = [(dest, msg)] := by
      simp [handlerWrites, inside, loaded, sent]
    have hcount : (dest :: (entries sh.registry).drop (i + 1).toNat).count a ≤ 1 := by
      rw [← hdrop, ← ha]
      exact (List.drop_sublist _ _).count_le a
    by_cases hd : dest = a
    · -- the one occurrence is this one, so none is left behind it
      subst hd
      have hrest : dest ∉ (entries sh.registry).drop (i + 1).toNat := by
        rw [List.count_cons_self] at hcount
        exact List.count_eq_zero.mp (by omega)
      simp [hw, messagesTo, handlerOwes, handlerBegins, hdrop, hrest]
    · have hne : a ≠ dest := fun h => hd h.symm
      simp [hw, messagesTo, handlerOwes, handlerBegins, hdrop, hd, hne]
  | sigpipe msg i sock dest _ inside loaded raised =>
    simp [handlerWrites, messagesTo, handlerBegins, inside, loaded, raised]
  | sendDone msg i sock _ behind =>
    have hdrop : (entries sh.registry).drop i.toNat = [] := by
      apply List.drop_eq_nil_of_le
      simp only [entries_length]
      omega
    simp [handlerWrites, messagesTo, handlerOwes, handlerBegins, behind, hdrop]
  | _ => rfl

theorem owed_free {a : Int} {s : State ν} (h : s.shared.mutx = none) : owed a s = [] := by
  simp only [owed, h]

theorem owed_main {a : Int} {s : State ν} (h : s.shared.mutx = some .main) :
    owed a s = [] := by
  simp only [owed, h]

theorem owed_handler {a : Int} {s : State ν} {k : Nat}
    (h : s.shared.mutx = some (.handler k)) :
    owed a s = handlerOwes a s.shared.registry (s.handlers k).pc := by
  simp only [owed, h]

/-- A handler outside the sections owes nothing, whatever it does there. -/
theorem owed_update {s : State ν} (hg : Guarded s) {k : Nat} (h' : Handler) (sh : Shared ν)
    (a : Int) (hout : ¬ HandlerPc.Inside (s.handlers k).pc) (hmutx : sh.mutx = s.shared.mutx)
    (hreg : sh.registry = s.shared.registry) :
    owed a { s with shared := sh, handlers := Function.update s.handlers k h' } = owed a s := by
  have hk := mt (hg.exclusive (.handler k)).mpr hout
  simp only [owed, hmutx, hreg]
  cases hm : s.shared.mutx with
  | none => rfl
  | some u =>
    cases u with
    | main => rfl
    | handler j =>
      have hjk : j ≠ k := by
        rintro rfl
        exact hk hm
      simp only [Function.update_of_ne hjk]

theorem handler_balance {L : SocketLayer ν ε} {s : State ν} (hg : Guarded s) {k : Nat}
    {h' : Handler} {sh : Shared ν} {a : Int} (ha : OccursOnce a s)
    (hm : HandlerMove L s.clntSock (.handler k) (s.handlers k) s.shared h' sh) :
    messagesTo a (handlerWrites L (s.handlers k) s.shared) ++
        owed a { s with shared := sh, handlers := Function.update s.handlers k h' } =
      owed a s ++ handlerBegins (s.handlers k) := by
  have hb := move_balance hm (hg.index k) ha
  have hself : handlerOwes a sh.registry ((Function.update s.handlers k h') k).pc =
      handlerOwes a sh.registry h'.pc := by rw [Function.update_self]
  cases move_crossing hm with
  | enter out ins free taken =>
    rw [owed_free free, owed_handler taken, hself, hb, handlerOwes_outside _ _ out]
  | leave ins out free =>
    rw [owed_free free, owed_handler ((hg.exclusive (.handler k)).mp ins), ← hb,
      handlerOwes_outside _ _ out]
  | stay border kept still =>
    by_cases hin : HandlerPc.Inside (s.handlers k).pc
    · have hown := (hg.exclusive (.handler k)).mp hin
      rw [owed_handler hown, owed_handler (kept.trans hown), hself, hb]
    · rw [handlerOwes_outside _ _ hin, handlerOwes_outside _ _ (mt border.mp hin),
        List.append_nil, List.nil_append] at hb
      have hw : messagesTo a (handlerWrites L (s.handlers k) s.shared) = [] := by
        unfold handlerWrites
        cases hpc : (s.handlers k).pc with
        | send => exact absurd (hpc ▸ trivial) hin
        | _ => rfl
      rw [owed_update hg h' sh a hin kept (still hin), ← hb, hw, List.append_nil, List.nil_append]

/-- Every step keeps the books of the socket: written and still owed is what was
owed and what begins. -/
theorem step_balance {L : SocketLayer ν ε} (a : Int) (s : State ν) (l : Label ε) (t : State ν)
    (hs : step L s l = some t) (hg : Guarded s) (ha : OccursOnce a s) :
    stepWritesTo L a s l ++ owed a t = owed a s ++ stepBegins s l := by
  cases (step_move hs).2 with
  | handler k h' sh moved => exact handler_balance hg ha moved
  | read k res h' stepped =>
    obtain ⟨hpc, -, -⟩ := readStep_spec stepped
    have hout : ¬ HandlerPc.Inside (s.handlers k).pc := by simp [hpc, HandlerPc.Inside]
    simpa [stepWritesTo, stepBegins] using
      owed_update hg h' s.shared a hout rfl rfl
  | accept fd _ accepted =>
    obtain ⟨-, sh, rfl, hreg, hmutx, -, -⟩ := acceptStep_spec accepted
    simp only [stepWritesTo, stepBegins, owed, hreg, hmutx, List.nil_append, List.append_nil]
  | main _ moved =>
    simp only [stepWritesTo, stepBegins, List.nil_append, List.append_nil]
    have hown : ∀ pc, s.main = pc → MainPc.Inside pc → s.shared.mutx = some .main := by
      rintro pc rfl hin
      exact (hg.exclusive .main).mp hin
    cases moved with
    | lock pc free => rw [owed_free free, owed_main rfl]
    | register pc r =>
      have ho := hown _ pc trivial
      rw [owed_main ho]
      exact owed_main ho
    | unlock pc => rw [owed_main (hown _ pc trivial), owed_free rfl]
    | create pc =>
      have hnew := hg.unborn s.created (Nat.le_refl _)
      have hout : ¬ HandlerPc.Inside (s.handlers s.created).pc := by
        simp [hnew, HandlerPc.Inside]
      exact owed_update hg _ s.shared a hout rfl rfl
  | peer e net moved => simp [stepWritesTo, stepBegins, owed]

/-- Between two states with a free mutex, a socket that is in the array once all
the time gets every broadcast once, in the order in which they begin. -/
theorem writesTo_eq_broadcasts {L : SocketLayer ν ε} {s t : State ν} {as : List (Label ε)}
    (hg : Guarded s) (hrun : run (step L) s as = some t) (hfree : s.shared.mutx = none)
    (hfree' : t.shared.mutx = none) {a : Int} (ha : Throughout (step L) (OccursOnce a) s as) :
    writesTo L a s as = broadcasts L s as := by
  have hguard : Throughout (step L) Guarded s as :=
    throughout_invariant guarded_step hg as
  have hb := trace_balance (I := fun s => Guarded s ∧ OccursOnce a s)
    (stepWritesTo L a) stepBegins (owed a)
    (fun s l t h hs => step_balance a s l t hs h.1 h.2) (hguard.and ha) hrun
  simpa [owed_free hfree, owed_free hfree', writesTo, broadcasts] using hb

/-- Two sockets that are in the array once, throughout a stretch of a run between
two states with a free mutex, are written the same messages in the same order:
every message whose broadcast begins in the stretch, once. -/
theorem same_messages_in_order (L : SocketLayer ν ε) (net : ν) (as bs : List (Label ε))
    (s t : State ν) (hs : run (step L) (start net) as = some s)
    (ht : run (step L) s bs = some t) (hfree : s.shared.mutx = none)
    (hfree' : t.shared.mutx = none) (a b : Int)
    (ha : Throughout (step L) (OccursOnce a) s bs)
    (hb : Throughout (step L) (OccursOnce b) s bs) :
    writesTo L a s bs = writesTo L b s bs ∧ writesTo L a s bs = broadcasts L s bs := by
  have hg : Guarded s := run_invariant guarded_step (guarded_start net) hs
  have hwa := writesTo_eq_broadcasts hg ht hfree hfree' ha
  have hwb := writesTo_eq_broadcasts hg ht hfree hfree' hb
  exact ⟨hwa.trans hwb.symm, hwa⟩

def twoClients : List (Label Empty) :=
  [.accept 4, .main, .main, .main, .main, .handler 0,
    .accept 5, .main, .main, .main, .main, .handler 1]

def firstSaysHi : List (Label Empty) :=
  .read 0 (.data [104, 105, 10]) :: List.replicate 5 (.handler 0)

theorem both_get_hi :
    ∃ s t, run (step openSockets) (start ()) twoClients = some s ∧
      run (step openSockets) s firstSaysHi = some t ∧
      writesTo openSockets 4 s firstSaysHi = writesTo openSockets 5 s firstSaysHi ∧
      writesTo openSockets 4 s firstSaysHi = broadcasts openSockets s firstSaysHi :=
  ⟨_, _, rfl, rfl, same_messages_in_order openSockets () twoClients firstSaysHi _ _ rfl rfl
    rfl rfl 4 5 (by decide) (by decide)⟩

end NetworkProgramming.ChatBroadcast
