-- SUMMARY: Setting up the listening socket (socket_op.c): when its descriptor is used after it was closed.
import LinuxShare.Sockets.Options

/-!
# demo_tcp_init

The function calls the option functions one after the other and does not learn whether
they have closed `fd`. It closes `fd` and returns an error itself when a call of its own
fails, apart from two that it only reports.
-/

namespace Sockets

open Descriptor

/-- The option functions, in the order in which they are called. -/
def optionFunctions : List (List OptStep) :=
  [demoSoAcceptconn, demoSoBindtodevice, demoSoDontroute, demoSoKeepalive, demoSoLinger, demoSoMark,
    demoSoOobinline, demoSoPriority, demoSoProtocol, demoSoRcvbuf, demoSoRcvbufforce, demoSoSndbuf,
    demoSoSndbufforce, demoSoRcvlowat, demoSoSndlowat, demoSoRcvtimeo, demoSoSndtimeo, demoSoTimestamp,
    demoTcpCork, demoTcpDeferAccept, demoTcpInfo, demoTcpKeepcnt, demoTcpLinger2, demoTcpMaxseg,
    demoTcpNodelay, demoTcpQuickack, demoTcpSyncnt, demoTcpWindowClamp]

def runFunctions (pattern : Nat → Bool) (fns : List (List OptStep)) (p : Proc) : Proc :=
  fns.foldl (fun p steps => runSteps pattern steps p) p

/-- `perror(text); close(fd); return -1;` -/
def giveUp (pattern : Nat → Bool) (text : String) (p : Proc) : Int × Proc :=
  (-1, ((p.say text).sys pattern .close).2)

/-- `fcntl(fd, F_SETFD, FD_CLOEXEC)`, whose failure is only reported, and
`fcntl(fd, F_GETFL, 0)`, whose result is not checked. -/
def fcntls (pattern : Nat → Bool) (p : Proc) : Proc :=
  let (ok, p) := p.sys pattern .setfd
  let p := if ok then p else p.say "FD_CLOEXEC"
  (p.sys pattern .getfl).2

/-- From there on. -/
def bindAndListen (pattern : Nat → Bool) (p : Proc) : Int × Proc :=
  let (ok, p) := (fcntls pattern p).sys pattern .setfl
  if ok = false then giveUp pattern "unw_set_block error." p
  else
    let (ok, p) := p.sys pattern (.bind 12130)
    if ok = false then giveUp pattern "bind error." p
    else
      let (ok, p) := p.sys pattern (.listen 4)
      if ok = false then giveUp pattern "unw_listen error." p
      else (0, runSteps pattern demoSoAcceptconn p)

def demoTcpInit (pattern : Nat → Bool) : Int × Proc :=
  let (ok, p) := Proc.init.sys pattern .socket
  if ok = false then (-1, p.say "create socket error.")
  else
    let (ok, p) := p.sys pattern (.opt (.setsockopt .solSocket .soReuseaddr (.int 1)))
    if ok = false then giveUp pattern "SO_REUSEADDR" p
    else
      let (ok, p) := p.sys pattern (.opt (.setsockopt .solSocket .soReuseport (.int 1)))
      let p := if ok then p else p.say "SO_REUSEPORT"
      bindAndListen pattern (runFunctions pattern optionFunctions p)

/-! ## The option functions together -/

variable {pattern : Nat → Bool} {fns : List (List OptStep)} {p : Proc} {s : SockState}

theorem runFunctions_of_misused (h : p.status = .misused) :
    (runFunctions pattern fns p).status = .misused := by
  induction fns generalizing p with
  | nil => exact h
  | cons steps fns ih => exact ih (runSteps_of_misused h)

/-- Either all calls that matter pass and the descriptor stays open, or it is closed in the end
or has been used after it was. -/
theorem runFunctions_of_opened (pattern : Nat → Bool) (hne : ∀ steps ∈ fns, steps ≠ []) (h : p.status = .opened s) :
    (AllPass pattern p.made fns.flatten → (runFunctions pattern fns p).status = .opened s ∧
      (runFunctions pattern fns p).made = p.made + fns.flatten.length) ∧
    (¬ AllPass pattern p.made fns.flatten → (runFunctions pattern fns p).status = .closed ∨
      (runFunctions pattern fns p).status = .misused) := by
  induction fns generalizing p with
  | nil => exact ⟨fun _ => ⟨h, rfl⟩, fun hnot => absurd trivial hnot⟩
  | cons steps fns ih =>
      obtain ⟨_, hfns⟩ := List.forall_mem_cons.mp hne
      obtain ⟨hpass, hfail⟩ := runSteps_of_opened pattern steps h
      rw [List.flatten_cons, allPass_append, List.length_append, ← Nat.add_assoc]
      by_cases hsteps : AllPass pattern p.made steps
      · obtain ⟨hopen, hmade⟩ := hpass hsteps
        have hrest := ih hfns hopen
        rw [hmade] at hrest
        rw [and_iff_right hsteps]
        exact hrest
      · refine ⟨fun hall => absurd hall.1 hsteps, fun _ => ?_⟩
        have hclosed := hfail hsteps
        cases fns with
        | nil => exact .inl hclosed
        | cons steps' fns =>
            have hmisused : (runSteps pattern steps' (runSteps pattern steps p)).status = .misused :=
              runSteps_of_closed (hfns steps' List.mem_cons_self) hclosed
            have hrest : (runFunctions pattern fns _).status = .misused := runFunctions_of_misused hmisused
            exact .inr hrest

/-! ## The rest -/

@[simp] theorem act_setfd (ok : Bool) : SysCall.setfd.act ok = .use id := by
  cases ok <;> rfl

@[simp] theorem act_getfl (ok : Bool) : SysCall.getfl.act ok = .use id := by
  cases ok <;> rfl

@[simp] theorem act_setfl (ok : Bool) : SysCall.setfl.act ok = .use id := by
  cases ok <;> rfl

@[simp] theorem act_bind (port : Nat) (ok : Bool) :
    (SysCall.bind port).act ok = .use fun s => { s with bound := s.bound || ok } := by
  cases ok with
  | false => simp [SysCall.act]; rfl
  | true => simp [SysCall.act]

@[simp] theorem act_listen (backlog : Nat) (ok : Bool) :
    (SysCall.listen backlog).act ok = .use fun s => { s with listening := s.listening || ok } := by
  cases ok with
  | false => simp [SysCall.act]; rfl
  | true => simp [SysCall.act]

theorem giveUp_of_misused (text : String) (h : p.status = .misused) :
    (giveUp pattern text p).2.status = .misused := by
  simp [giveUp, h]

theorem giveUp_of_opened (pattern : Nat → Bool) (text : String) (h : p.status = .opened s) :
    (giveUp pattern text p).1 = -1 ∧ (giveUp pattern text p).2.status = .closed := by
  simp [giveUp, h]

theorem made_fcntls (pattern : Nat → Bool) (p : Proc) : (fcntls pattern p).made = p.made + 2 := by
  unfold fcntls
  dsimp only
  split <;> simp

theorem fcntls_of_opened (h : p.status = .opened s) : (fcntls pattern p).status = .opened s := by
  unfold fcntls
  dsimp only
  split <;> simp [h]

theorem fcntls_of_not_opened (h : p.status = .closed ∨ p.status = .misused) :
    (fcntls pattern p).status = .misused := by
  unfold fcntls
  dsimp only
  split
  · rcases h with h | h <;> simp [h]
  · rcases h with h | h <;> simp [h]

/-- What is expected of the return of `demo_tcp_init`. -/
structure Sound (r : Int × Proc) : Prop where
  used : r.2.status ≠ .misused
  listening : r.1 = 0 → r.2.status = .opened { bound := true, listening := true }

theorem sound_giveUp (text : String) (h : p.status = .opened s) : Sound (giveUp pattern text p) := by
  obtain ⟨hret, hclosed⟩ := giveUp_of_opened pattern text h
  exact ⟨by simp [hclosed], by simp [hret]⟩

theorem not_sound_of_not_opened (h : p.status = .closed ∨ p.status = .misused) :
    ¬ Sound (bindAndListen pattern p) := by
  intro hsound
  apply hsound.used
  have hfcntls : (fcntls pattern p).status = .misused := fcntls_of_not_opened h
  unfold bindAndListen
  dsimp only
  split
  · exact giveUp_of_misused _ (by simp [hfcntls])
  · split
    · exact giveUp_of_misused _ (by simp [hfcntls])
    · split
      · exact giveUp_of_misused _ (by simp [hfcntls])
      · exact runSteps_of_misused (by simp [hfcntls])

/-- The last call decides whether the socket that listens stays open. -/
theorem sound_last_iff (pattern : Nat → Bool) (h : p.status = .opened { bound := true, listening := true }) :
    Sound (0, runSteps pattern demoSoAcceptconn p) ↔ pattern p.made = true := by
  obtain ⟨hpass, hfail⟩ := runSteps_of_opened pattern demoSoAcceptconn h
  cases hlast : pattern p.made with
  | false =>
      have hclosed := hfail fun hall => by simpa [hlast] using hall.1 rfl
      refine iff_of_false (fun hsound => ?_) Bool.false_ne_true
      rw [hsound.listening rfl] at hclosed
      cases hclosed
  | true =>
      have hkept := (hpass ⟨fun _ => hlast, trivial⟩).1
      exact iff_of_true ⟨by simp [hkept], fun _ => hkept⟩ rfl

/-- With the descriptor open, only the very last call can go wrong. -/
theorem sound_bindAndListen_iff (h : p.status = .opened s) :
    Sound (bindAndListen pattern p) ↔
      pattern (p.made + 2) = false ∨ pattern (p.made + 3) = false ∨ pattern (p.made + 4) = false ∨
        pattern (p.made + 5) = true := by
  have hfcntls : (fcntls pattern p).status = .opened s := fcntls_of_opened h
  have hmade := made_fcntls pattern p
  cases hsetfl : pattern (p.made + 2) with
  | false =>
      refine iff_of_true ?_ (.inl rfl)
      simp only [bindAndListen, Proc.sys_fst, hmade, hsetfl, if_true]
      exact sound_giveUp (s := s) _ (by simp [hfcntls])
  | true =>
      cases hbind : pattern (p.made + 3) with
      | false =>
          refine iff_of_true ?_ (.inr (.inl rfl))
          simp only [bindAndListen, Proc.sys_fst, Proc.made_sys, hmade, hsetfl, hbind,
            Bool.true_eq_false, if_false, if_true]
          exact sound_giveUp (s := s) _ (by simp [hfcntls, hmade, hbind])
      | true =>
          cases hlisten : pattern (p.made + 4) with
          | false =>
              refine iff_of_true ?_ (.inr (.inr (.inl rfl)))
              simp only [bindAndListen, Proc.sys_fst, Proc.made_sys, hmade, hsetfl, hbind, hlisten,
                Bool.true_eq_false, if_false, if_true]
              exact sound_giveUp (s := { s with bound := true }) _ (by simp [hfcntls, hmade, hbind, hlisten])
          | true =>
              simp only [bindAndListen, Proc.sys_fst, Proc.made_sys, hmade, hsetfl, hbind, hlisten,
                Bool.true_eq_false, if_false, false_or]
              have hopen : ((((fcntls pattern p).sys pattern .setfl).2.sys pattern (.bind 12130)).2.sys pattern
                  (.listen 4)).2.status = .opened { bound := true, listening := true } := by
                simp [hfcntls, hmade, hbind, hlisten]
              have hlast := sound_last_iff pattern hopen
              simpa only [Proc.made_sys, hmade] using hlast

/-! ## The whole function -/

/-- Whether the calls of the option functions pass, as far as their failure closes the
descriptor; the calls before them are number 0, 1 and 2. -/
def OptionsPass (pattern : Nat → Bool) : Prop := AllPass pattern 3 optionFunctions.flatten

instance (pattern : Nat → Bool) : Decidable (OptionsPass pattern) :=
  inferInstanceAs (Decidable (AllPass _ _ _))

/-- The number of the call after those of the option functions. -/
def afterOptions : Nat := 3 + optionFunctions.flatten.length

/-- The descriptor is used only while it is open, and 0 is returned only with a listening
socket, if and only if the socket cannot be created or its address not be reused, or no
option function closes the descriptor and one of the last calls but the very last fails, or
the very last one does not. -/
theorem demoTcpInit_sound_iff (pattern : Nat → Bool) :
    Sound (demoTcpInit pattern) ↔
      pattern 0 = false ∨ pattern 1 = false ∨
      OptionsPass pattern ∧ (pattern (afterOptions + 2) = false ∨ pattern (afterOptions + 3) = false ∨
        pattern (afterOptions + 4) = false ∨ pattern (afterOptions + 5) = true) := by
  have hne : ∀ steps ∈ optionFunctions, steps ≠ [] := by decide
  cases hsocket : pattern 0 with
  | false =>
      refine iff_of_true ⟨?_, ?_⟩ (.inl rfl)
      · simp [demoTcpInit, hsocket, SysCall.act]
      · simp [demoTcpInit, hsocket]
  | true =>
      cases hreuse : pattern 1 with
      | false =>
          refine iff_of_true ?_ (.inr (.inl rfl))
          simp only [demoTcpInit, Proc.sys_fst, Proc.made_sys, Proc.made_init, Nat.zero_add, hsocket, hreuse,
            Bool.true_eq_false, if_false, if_true]
          exact sound_giveUp (s := ⟨false, false⟩) _ (by simp [hsocket, SysCall.act])
      | true =>
          simp only [hsocket, hreuse, Bool.true_eq_false, false_or, demoTcpInit, Proc.sys_fst, Proc.made_sys,
            Proc.made_init, Nat.zero_add, if_false]
          -- the descriptor before the option functions
          generalize hp : (if pattern (1 + 1) = true then _ else _ : Proc) = p
          have hopen : p.status = .opened { bound := false, listening := false } := by
            rw [← hp]
            split <;> simp [hsocket, SysCall.act]
          have hmade : p.made = 3 := by
            rw [← hp]
            split <;> simp
          obtain ⟨hpass, hfail⟩ := runFunctions_of_opened pattern hne hopen
          rw [hmade] at hpass hfail
          by_cases hoptions : OptionsPass pattern
          · obtain ⟨hkept, hafter⟩ := hpass hoptions
            rw [and_iff_right hoptions, sound_bindAndListen_iff hkept, hafter]
            rfl
          · exact iff_of_false (not_sound_of_not_opened (hfail hoptions)) fun h => hoptions h.1

/-- All system calls succeed except the one that needs a privilege. -/
def unprivileged (n : Nat) : Bool := n ≠ 9

/-- Setting the mark fails, and zero is returned with a descriptor that was used after it was
closed. -/
theorem unprivileged_misuses :
    (demoTcpInit unprivileged).2.calls[9]? = some (.opt (.setsockopt .solSocket .soMark (.int 100)), false) ∧
      (demoTcpInit unprivileged).1 = 0 ∧ (demoTcpInit unprivileged).2.status = .misused ∧
      ¬ Sound (demoTcpInit unprivileged) := by
  have hmisused : (demoTcpInit unprivileged).2.status = .misused := by decide +kernel
  exact ⟨by decide +kernel, by decide +kernel, hmisused, fun h => h.used hmisused⟩

end Sockets
