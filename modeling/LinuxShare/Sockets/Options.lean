-- SUMMARY: The functions of socket_op.c that set one socket option each, and what they do when that fails.
import LinuxShare.Lib.Descriptor

/-!
# Option functions

Each function makes a few calls on the global descriptor `fd`. When one fails, most
report it, close `fd` and return nothing to their caller. Two report some failures only.
-/

namespace Sockets

open Descriptor

/-! ## Calls -/

inductive Level where
  | solSocket | ipprotoIp | ipprotoTcp
  deriving DecidableEq

inductive OptName where
  | soReuseaddr | soReuseport | soAcceptconn | soBindtodevice | soDontroute | soKeepalive
  | soLinger | soMark | soOobinline | soPriority | soProtocol | soRcvbuf | soRcvbufforce
  | soSndbuf | soSndbufforce | soRcvlowat | soSndlowat | soRcvtimeo | soSndtimeo | soTimestamp
  | ipTos
  | tcpCork | tcpDeferAccept | tcpInfo | tcpKeepidle | tcpKeepcnt | tcpKeepintvl | tcpLinger2
  | tcpMaxseg | tcpNodelay | tcpQuickack | tcpSyncnt | tcpWindowClamp
  deriving DecidableEq

/-- What an option is set to: an `int`, a `struct linger`, a `struct timeval` or the name in
a `struct ifreq`. -/
inductive OptVal where
  | int (n : Int)
  | linger (onoff linger : Int)
  | timeval (sec usec : Int)
  | ifreq (name : String)
  deriving DecidableEq

inductive OptCall where
  | setsockopt (level : Level) (name : OptName) (val : OptVal)
  | getsockopt (level : Level) (name : OptName)
  deriving DecidableEq

/-- System calls on `fd`. -/
inductive SysCall where
  | socket
  | opt (call : OptCall)
  | setfd | getfl | setfl
  | bind (port : Nat)
  | listen (backlog : Nat)
  | close
  deriving DecidableEq

/-- What the kernel knows of the socket. -/
structure SockState where
  bound : Bool
  listening : Bool
  deriving DecidableEq

/-- What a call does to the descriptor, by whether it succeeds. A close always closes. -/
def SysCall.act : SysCall → Bool → Act SockState
  | .socket, true => .acquire (some { bound := false, listening := false })
  | .socket, false => .acquire none
  | .bind _, true => .use fun s => { s with bound := true }
  | .listen _, true => .use fun s => { s with listening := true }
  | .close, _ => .release
  | _, _ => .use id

/-- The calls made so far, with whether each has succeeded, and what has been reported. -/
structure Proc where
  calls : List (SysCall × Bool)
  messages : List String
  deriving DecidableEq

namespace Proc

def init : Proc := ⟨[], []⟩

def made (p : Proc) : Nat := p.calls.length

def status (p : Proc) : Status SockState := .after (p.calls.map fun c => c.1.act c.2)

/-- `perror` or `printf`. -/
def say (p : Proc) (text : String) : Proc := { p with messages := p.messages ++ [text] }

/-- A system call. The pattern says which calls succeed, by their number in the run. -/
def sys (pattern : Nat → Bool) (c : SysCall) (p : Proc) : Bool × Proc :=
  (pattern p.made, { p with calls := p.calls ++ [(c, pattern p.made)] })

variable (pattern : Nat → Bool) (c : SysCall) (p : Proc)

@[simp] theorem made_init : init.made = 0 := rfl

@[simp] theorem status_init : init.status = .closed := rfl

@[simp] theorem made_say (text : String) : (p.say text).made = p.made := rfl

@[simp] theorem status_say (text : String) : (p.say text).status = p.status := rfl

@[simp] theorem sys_fst : (sys pattern c p).1 = pattern p.made := rfl

@[simp] theorem made_sys : (sys pattern c p).2.made = p.made + 1 := by
  simp [sys, made]

@[simp] theorem status_sys : (sys pattern c p).2.status = p.status.step (c.act (pattern p.made)) := by
  simp [sys, status]

end Proc

/-! ## The functions -/

/-- What becomes of a failure: the descriptor is closed and the function left, or the failure
is reported and that is all. -/
inductive OnFail where
  | closes | reports
  deriving DecidableEq

/-- `if (call == -1) { perror(text); … }` -/
structure OptStep where
  call : OptCall
  text : String
  onFail : OnFail

/-- A failure closes the descriptor. -/
def OptStep.critical (s : OptStep) : Bool := s.onFail = .closes

/-- A function made of such steps. -/
def runSteps (pattern : Nat → Bool) : List OptStep → Proc → Proc
  | [], p => p
  | s :: steps, p =>
    let (ok, p) := p.sys pattern (.opt s.call)
    if ok then runSteps pattern steps p
    else
      match s.onFail with
      | .closes => ((p.say s.text).sys pattern .close).2
      | .reports => runSteps pattern steps (p.say s.text)

/-- The step of nearly all of them. -/
def closing (call : OptCall) (text : String) : OptStep := ⟨call, text, .closes⟩

open Level OptName OptCall

def demoSoAcceptconn : List OptStep := [closing (getsockopt solSocket soAcceptconn) "SO_ACCEPTCONN"]

def demoSoBindtodevice : List OptStep :=
  [closing (setsockopt solSocket soBindtodevice (.ifreq "eth0")) "SO_BINDTODEVICE",
    closing (getsockopt solSocket soBindtodevice) "SO_BINDTODEVICE"]

def demoSoDontroute : List OptStep := [closing (setsockopt solSocket soDontroute (.int 1)) "SO_DONTROUTE"]

def demoSoKeepalive : List OptStep := [closing (setsockopt solSocket soKeepalive (.int 1)) "SO_KEEPALIVE"]

def demoSoLinger : List OptStep := [closing (setsockopt solSocket soLinger (.linger 1 5)) "SO_LINGER"]

def demoSoMark : List OptStep := [closing (setsockopt solSocket soMark (.int 100)) "SO_MARK"]

def demoSoOobinline : List OptStep := [closing (setsockopt solSocket soOobinline (.int 1)) "SO_OOBINLINE"]

/-- A failure to read the type of service is only printed. -/
def demoSoPriority : List OptStep :=
  [closing (setsockopt solSocket soPriority (.int 6)) "SO_PRIORITY",
    ⟨getsockopt ipprotoIp ipTos, "Oh no\n", .reports⟩]

def demoSoProtocol : List OptStep := [closing (getsockopt solSocket soProtocol) "SO_PROTOCOL"]

def demoSoRcvbuf : List OptStep :=
  [closing (getsockopt solSocket soRcvbuf) "get SO_RCVBUF",
    closing (setsockopt solSocket soRcvbuf (.int 5000)) "set SO_RCVBUF",
    closing (getsockopt solSocket soRcvbuf) "get SO_RCVBUF"]

def demoSoRcvbufforce : List OptStep :=
  [closing (setsockopt solSocket soRcvbufforce (.int 600000)) "set SO_RCVBUF",
    closing (getsockopt solSocket soRcvbuf) "get SO_RCVBUF"]

def demoSoSndbuf : List OptStep :=
  [closing (getsockopt solSocket soSndbuf) "get SO_SNDBUF",
    closing (setsockopt solSocket soSndbuf (.int 5000)) "set SO_SNDBUF",
    closing (getsockopt solSocket soSndbuf) "get SO_SNDBUF"]

def demoSoSndbufforce : List OptStep :=
  [closing (setsockopt solSocket soSndbufforce (.int 600000)) "set SO_SNDBUFFORCE",
    closing (getsockopt solSocket soSndbuf) "get SO_SNDBUF"]

def demoSoRcvlowat : List OptStep :=
  [closing (setsockopt solSocket soRcvlowat (.int 10)) "set SO_RCVLOWAT",
    closing (getsockopt solSocket soRcvlowat) "get SO_RCVLOWAT"]

/-- The option cannot be changed under Linux; its failure does not close the descriptor. -/
def demoSoSndlowat : List OptStep :=
  [⟨setsockopt solSocket soSndlowat (.int 1), "set SO_SNDLOWAT", .reports⟩]

def demoSoRcvtimeo : List OptStep :=
  [closing (setsockopt solSocket soRcvtimeo (.timeval 5 0)) "set SO_RCVTIMEO"]

def demoSoSndtimeo : List OptStep :=
  [closing (setsockopt solSocket soSndtimeo (.timeval 5 0)) "set SO_SNDTIMEO"]

def demoSoTimestamp : List OptStep := [closing (setsockopt solSocket soTimestamp (.int 1)) "SO_TIMESTAMP"]

def demoTcpCork : List OptStep := [closing (setsockopt ipprotoTcp tcpCork (.int 1)) "TCP_CORK"]

def demoTcpDeferAccept : List OptStep :=
  [closing (setsockopt ipprotoTcp tcpDeferAccept (.int 10)) "TCP_DEFER_ACCEPT"]

def demoTcpInfo : List OptStep := [closing (getsockopt ipprotoTcp tcpInfo) "TCP_INFO"]

def demoTcpKeepcnt : List OptStep :=
  [closing (setsockopt ipprotoTcp tcpKeepidle (.int 7200)) "TCP_KEEPIDLE ",
    closing (setsockopt ipprotoTcp tcpKeepcnt (.int 5)) "TCP_KEEPCNT",
    closing (setsockopt ipprotoTcp tcpKeepintvl (.int 150)) "TCP_KEEPINTVL "]

def demoTcpLinger2 : List OptStep := [closing (setsockopt ipprotoTcp tcpLinger2 (.int 90)) "TCP_LINGER2"]

def demoTcpMaxseg : List OptStep := [closing (setsockopt ipprotoTcp tcpMaxseg (.int 1024)) "TCP_MAXSEG"]

def demoTcpNodelay : List OptStep := [closing (setsockopt ipprotoTcp tcpNodelay (.int 1)) "TCP_NODELAY "]

def demoTcpQuickack : List OptStep := [closing (setsockopt ipprotoTcp tcpQuickack (.int 1)) "TCP_QUICKACK "]

def demoTcpSyncnt : List OptStep := [closing (setsockopt ipprotoTcp tcpSyncnt (.int 7)) "TCP_SYNCNT "]

def demoTcpWindowClamp : List OptStep :=
  [closing (setsockopt ipprotoTcp tcpWindowClamp (.int 1300)) "TCP_WINDOW_CLAMP ",
    closing (getsockopt ipprotoTcp tcpWindowClamp) "TCP_WINDOW_CLAMP "]

/-! ## What they leave -/

/-- No step whose failure closes the descriptor fails, the first of them being call number `n`. -/
def AllPass (pattern : Nat → Bool) : Nat → List OptStep → Prop
  | _, [] => True
  | n, s :: steps => (s.critical = true → pattern n = true) ∧ AllPass pattern (n + 1) steps

instance decidableAllPass (pattern : Nat → Bool) : ∀ n steps, Decidable (AllPass pattern n steps)
  | _, [] => inferInstanceAs (Decidable True)
  | n, s :: steps =>
    have := decidableAllPass pattern (n + 1) steps
    inferInstanceAs (Decidable ((s.critical = true → pattern n = true) ∧ AllPass pattern (n + 1) steps))

theorem allPass_append {pattern : Nat → Bool} {n : Nat} {l l' : List OptStep} :
    AllPass pattern n (l ++ l') ↔ AllPass pattern n l ∧ AllPass pattern (n + l.length) l' := by
  induction l generalizing n with
  | nil => simp [AllPass]
  | cons s l ih =>
      rw [List.cons_append, AllPass, AllPass, ih, and_assoc, List.length_cons, Nat.add_assoc,
        Nat.add_comm 1]

@[simp] theorem act_opt (call : OptCall) (ok : Bool) : (SysCall.opt call).act ok = .use id := by
  cases ok <;> rfl

@[simp] theorem act_close (ok : Bool) : SysCall.close.act ok = .release := by
  cases ok <;> rfl

variable {pattern : Nat → Bool} {steps : List OptStep} {p : Proc} {s : SockState}

theorem runSteps_of_misused (h : p.status = .misused) : (runSteps pattern steps p).status = .misused := by
  induction steps generalizing p with
  | nil => exact h
  | cons st steps ih =>
      rw [runSteps]
      dsimp only
      split
      · exact ih (by simp [h])
      · split
        · simp [h]
        · exact ih (by simp [h])

/-- A function that is called with the descriptor closed uses it. -/
theorem runSteps_of_closed (hne : steps ≠ []) (h : p.status = .closed) :
    (runSteps pattern steps p).status = .misused := by
  obtain ⟨st, steps, rfl⟩ := List.exists_cons_of_ne_nil hne
  rw [runSteps]
  dsimp only
  split
  · exact runSteps_of_misused (by simp [h])
  · split
    · simp [h]
    · exact runSteps_of_misused (by simp [h])

/-- With the descriptor open a function makes all of its calls and leaves it open, or it closes
it because one of them has failed. -/
theorem runSteps_of_opened (pattern : Nat → Bool) (steps : List OptStep) (h : p.status = .opened s) :
    (AllPass pattern p.made steps → (runSteps pattern steps p).status = .opened s ∧
      (runSteps pattern steps p).made = p.made + steps.length) ∧
    (¬ AllPass pattern p.made steps → (runSteps pattern steps p).status = .closed) := by
  induction steps generalizing p with
  | nil => exact ⟨fun _ => ⟨h, rfl⟩, fun hnot => absurd trivial hnot⟩
  | cons st steps ih =>
      have hlen : p.made + 1 + steps.length = p.made + (st :: steps).length := by
        rw [List.length_cons]
        omega
      rw [runSteps, AllPass]
      dsimp only
      split
      · next hok =>
          have hrest := ih (p := (p.sys pattern (.opt st.call)).2) (by simp [h])
          rw [Proc.made_sys, hlen] at hrest
          have hpass : st.critical = true → pattern p.made = true := fun _ => hok
          rw [and_iff_right hpass]
          exact hrest
      · next hok =>
          rw [Proc.sys_fst] at hok
          cases hfail : st.onFail with
          | closes =>
              have hcritical : st.critical = true := by simp [OptStep.critical, hfail]
              refine ⟨fun hpass => absurd (hpass.1 hcritical) hok, fun _ => ?_⟩
              simp [h]
          | reports =>
              have hpass : st.critical = true → pattern p.made = true := by
                simp [OptStep.critical, hfail]
              have hrest := ih (p := (p.sys pattern (.opt st.call)).2.say st.text) (by simp [h])
              rw [Proc.made_say, Proc.made_sys, hlen] at hrest
              rw [and_iff_right hpass]
              exact hrest

end Sockets
