import NetworkProgramming.ChatServer.Broadcast

/-!
# What a broadcast under way needs

The mutex keeps the array still for the thread inside. What a broadcast needs of
the sockets that it still has to write to is then a matter of the sockets alone.
-/
namespace NetworkProgramming.ChatUnderway

open Buffer Transition Mutex ChatRegistry ChatMessages ChatThreads ChatBroadcast

variable {ν ε : Type}

/-- Every broadcast under way has what it needs for the rest of its writes. -/
def Underway (need : ν → List Int → List Byte → Prop) (s : State ν) : Prop :=
  ∀ k msg i, (s.handlers k).pc = .send msg i →
    need s.shared.net ((entries s.shared.registry).drop i.toNat) msg

/-- What a broadcast needs outlasts what the process itself does to the sockets. -/
structure Lasting (L : SocketLayer ν ε) (need : ν → List Int → List Byte → Prop) : Prop where
  accept : ∀ {net fd socks msg}, need net socks msg → need (L.accept net fd) socks msg
  close : ∀ {net fd socks msg}, need net socks msg → need (L.close net fd) socks msg
  write : ∀ {net net' dest socks msg}, need net (dest :: socks) msg →
    L.write net dest msg = .sent net' → need net' socks msg

theorem acceptStep_net {L : SocketLayer ν ε} {s t : State ν} {fd : Int}
    (h : acceptStep L s fd = some t) :
    t.shared.net = s.shared.net ∨ t.shared.net = L.accept s.shared.net fd := by
  obtain ⟨-, h⟩ := Option.ite_none_right_eq_some.mp h
  split at h
  next =>
    cases h
    exact .inl rfl
  next =>
    obtain ⟨-, h⟩ := Option.ite_none_right_eq_some.mp h
    cases h
    exact .inr rfl

/-- A step of the handler that broadcasts. -/
theorem underway_move {L : SocketLayer ν ε} {need : ν → List Int → List Byte → Prop}
    (hlast : Lasting L need) {argument : Int} {self : Tid} {h h' : Handler} {sh sh' : Shared ν}
    (hm : HandlerMove L argument self h sh h' sh')
    (hi : ∀ msg i, h.pc = .send msg i → 0 ≤ i)
    (hneed : ∀ msg i, h.pc = .send msg i →
      need sh.net ((entries sh.registry).drop i.toNat) msg)
    (hlock : ∀ msg, h.pc = .sendLock msg → need sh.net (entries sh.registry) msg) :
    ∀ msg i, h'.pc = .send msg i →
      need sh'.net ((entries sh'.registry).drop i.toNat) msg := by
  intro msg i he
  cases hm with
  | sendLock =>
    cases he
    exact hlock msg rfl
  | write _ j _ dest _ net inside loaded sent =>
    cases he
    have hrest := hneed msg j rfl
    rw [entries_drop sh.registry (hi msg j rfl) inside loaded] at hrest
    exact hlast.write hrest sent
  | sigpipe => exact hneed msg i he
  | _ => cases he

/-- A step that begins no broadcast and leaves array and sockets as they are. -/
theorem Underway.keep {need : ν → List Int → List Byte → Prop} {s t : State ν}
    (h : Underway need s)
    (hsend : ∀ k msg i, (t.handlers k).pc = .send msg i → (s.handlers k).pc = .send msg i)
    (hreg : t.shared.registry = s.shared.registry) (hnet : t.shared.net = s.shared.net) :
    Underway need t := by
  intro k msg i hk
  rw [hreg, hnet]
  exact h k msg i (hsend k msg i hk)

/-- Every step keeps what the broadcasts under way need, if a new one finds it and the
peers leave it. -/
theorem underway_step {L : SocketLayer ν ε} {need : ν → List Int → List Byte → Prop}
    (hlast : Lasting L need) {s t : State ν} {a : Label ε} (hg : Guarded s)
    (hu : Underway need s)
    (hlock : ∀ k msg, a = .handler k → (s.handlers k).pc = .sendLock msg →
      need s.shared.net (entries s.shared.registry) msg)
    (hpeer : ∀ e net, a = .peer e → L.peer s.shared.net e = some net →
      Underway need { s with shared := { s.shared with net := net } })
    (hs : step L s a = some t) : Underway need t := by
  cases (step_move hs).2 with
  | accept fd _ accepted =>
    obtain ⟨-, sh, rfl, hreg, -⟩ := acceptStep_spec accepted
    rcases acceptStep_net accepted with hnet | (hnet : sh.net = _)
    · exact hu.keep (fun k msg i hk => hk) hreg hnet
    · intro k msg i hk
      simp only [hreg, hnet]
      exact hlast.accept (hu k msg i hk)
  | main _ moved =>
    cases moved with
    | lock | unlock => exact hu.keep (fun k msg i hk => hk) rfl rfl
    | register pc r =>
      -- the array changes while `main` is inside, so nobody broadcasts
      intro k msg i hk
      refine absurd ?_ (hg.outside_of_main (by simp [pc, MainPc.Inside]) k)
      simp only at hk
      simp [hk, HandlerPc.Inside]
    | create =>
      refine hu.keep (fun k msg i hk => ?_) rfl rfl
      by_cases hnew : k = s.created
      · simp [hnew] at hk
      · simpa only [Function.update_of_ne hnew] using hk
  | handler k h' sh moved =>
    intro j msg i hj
    by_cases hjk : j = k
    · subst hjk
      simp only [Function.update_self] at hj
      exact underway_move hlast moved (hg.index j) (hu j) (fun m hm => hlock j m rfl hm) msg i hj
    · simp only [Function.update_of_ne hjk] at hj
      obtain ⟨-, hreg, hnet⟩ :=
        outside_move moved (hg.others_outside (hj ▸ trivial) hjk) (by simp [hg.sender hj])
      simp only [hreg]
      rcases hnet with hnet | ⟨-, hnet⟩
      · exact hnet ▸ hu j msg i hj
      · exact hnet ▸ hlast.close (hu j msg i hj)
  | read k res h' stepped =>
    obtain ⟨-, -, hpc⟩ := readStep_spec stepped
    refine hu.keep (fun j msg i hj => ?_) rfl rfl
    by_cases hjk : j = k
    · subst hjk
      simp only [Function.update_self] at hj
      rcases hpc with hpc | ⟨m, hpc⟩ <;> simp [hpc] at hj
    · simpa only [Function.update_of_ne hjk] using hj
  | peer e net moved => exact hpeer e net rfl moved

end NetworkProgramming.ChatUnderway
