import Mathlib.Logic.Function.Basic
import CalvinHook.Transition

/-!
# Which connection a handler talks to

The threads of the socket server share the kernel's table of file descriptors.  `server_loop`
accepts a connection on a free number and starts a handler that keeps this number for good; a
broadcast whose send fails closes the number and takes it off `g_clients`, whether or not a handler
still uses it; a handler that ends closes nothing.  So a number may be given to a second connection
while the handler of the first one still receives and sends on it.

* `Owned`: a running handler's number is closed or stands for its own connection.
* `Owned.step`: kept by every step but an accept on the number of a running handler.
* `results_to_sender`: runs without such an accept send each result to where its script came from.
-/

namespace CalvinHook
namespace Socket

open Transition Function

/-- A file descriptor number. -/
abbrev Fd := ℕ

/-- A connection, numbered in the order of accepts. -/
abbrev Conn := ℕ

/-- A thread in `handle_client`. -/
structure ClientHandler where
  /-- Its argument. -/
  fd : Fd
  /-- Whether it has not returned. -/
  running : Bool
  /-- The messages received and not yet taken, each with the connection it was received from. -/
  queue : List Conn
  /-- The message whose script is running, with the connection it was received from. -/
  eval : Option Conn
  deriving DecidableEq

/-- The server and the kernel's side of it.  The handler of a connection has the connection's
number. -/
structure Server where
  /-- The open descriptors. -/
  fds : Fd → Option Conn
  /-- `g_clients`. -/
  clients : List Fd
  /-- The handlers. -/
  handlers : Conn → Option ClientHandler
  /-- The connections whose peer has disconnected. -/
  gone : Conn → Bool
  /-- The calls of `recv` that returned bytes: the handler, and the connection they came from. -/
  reads : List (Conn × Conn)
  /-- The result lines: the connection they were sent on, and the one their script came from. -/
  sent : List (Conn × Conn)
  /-- The next connection. -/
  next : Conn

/-- No connection yet. -/
def Server.start : Server := ⟨fun _ => none, [], fun _ => none, fun _ => false, [], [], 0⟩

/-- One step of a thread, of a peer or of the kernel. -/
inductive ServerStep where
  /-- `accept` returns this number; it joins `g_clients` and gets a handler. -/
  | accept (fd : Fd)
  /-- The peer of a connection disconnects. -/
  | disconnect (c : Conn)
  /-- A handler's `recv` returns bytes that complete this many messages, or, for none, no bytes. -/
  | recv (k : Conn) (msgs : Option ℕ)
  /-- A handler takes its next message and starts the script. -/
  | load (k : Conn)
  /-- The script is done, and the handler sends the result line. -/
  | respond (k : Conn)
  /-- Some script, of a handler or of a hook, calls `broadcast_to_clients`; a send to a peer that
  has disconnected fails for these numbers. -/
  | broadcast (fails : Fd → Bool)

namespace Server

/-- Replace a handler. -/
def setHandler (s : Server) (k : Conn) (h : ClientHandler) : Server :=
  { s with handlers := update s.handlers k (some h) }

/-- The send of a broadcast fails: on a closed number always, otherwise only if the peer has
gone. -/
def sendFails (s : Server) (fails : Fd → Bool) (fd : Fd) : Bool :=
  match s.fds fd with
  | none => true
  | some c => s.gone c && fails fd

/-- `server_loop` for one connection. -/
def accept (s : Server) (fd : Fd) : Server :=
  if s.fds fd = none then
    { s with
      fds := update s.fds fd (some s.next)
      clients := s.clients ++ [fd]
      handlers := update s.handlers s.next (some ⟨fd, true, [], none⟩)
      next := s.next + 1 }
  else s

/-- The call of `recv` in `handle_client`, made when the carried line holds no complete message. -/
def recv (s : Server) (k : Conn) (h : ClientHandler) (msgs : Option ℕ) : Server :=
  match s.fds h.fd, msgs with
  | none, _ => s.setHandler k { h with running := false }
  | some c, some n =>
    { s.setHandler k { h with queue := List.replicate n c } with reads := s.reads ++ [(k, c)] }
  | some c, none => if s.gone c then s.setHandler k { h with running := false } else s

/-- The `send` of the response: on a closed number nothing is sent. -/
def respond (s : Server) (k : Conn) (h : ClientHandler) (src : Conn) : Server :=
  match s.fds h.fd with
  | none => s.setHandler k { h with eval := none }
  | some c => { s.setHandler k { h with eval := none } with sent := s.sent ++ [(c, src)] }

/-- `broadcast_to_clients`. -/
def broadcast (s : Server) (fails : Fd → Bool) : Server :=
  { s with
    fds := fun fd => if fd ∈ s.clients ∧ s.sendFails fails fd then none else s.fds fd
    clients := s.clients.filter fun fd => !s.sendFails fails fd }

/-- One step; a step whose thread is elsewhere changes nothing. -/
def step (s : Server) : ServerStep → Server
  | .accept fd => s.accept fd
  | .disconnect c => { s with gone := update s.gone c true }
  | .recv k msgs =>
    match s.handlers k with
    | none => s
    | some h => if h.running ∧ h.queue = [] ∧ h.eval = none then s.recv k h msgs else s
  | .load k =>
    match s.handlers k with
    | none => s
    | some h =>
      match h.queue with
      | [] => s
      | c :: q =>
        if h.running ∧ h.eval = none then s.setHandler k { h with queue := q, eval := some c }
        else s
  | .respond k =>
    match s.handlers k with
    | none => s
    | some h =>
      match h.eval with
      | none => s
      | some src => if h.running then s.respond k h src else s
  | .broadcast fails => s.broadcast fails

end Server

/-- Each result line went out on the connection its script came from, and no two handlers read from
the same connection. -/
def Safe (s : Server) : Prop :=
  (∀ p ∈ s.sent, p.1 = p.2) ∧
    ∀ k1 k2 c, (k1, c) ∈ s.reads → (k2, c) ∈ s.reads → k1 = k2

/-- An accept does not return the number of a handler that is still running. -/
def NotInUse (s : Server) : ServerStep → Prop
  | .accept fd => ∀ k h, s.handlers k = some h → h.running → h.fd ≠ fd
  | _ => True

/-! ## Ownership -/

/-- What a handler of the connection `k` holds: messages from `k` only, and a number that is closed
or stands for `k`. -/
structure ClientHandler.Owns (fds : Fd → Option Conn) (k : Conn) (h : ClientHandler) : Prop where
  /-- The number. -/
  fd : h.running → fds h.fd = none ∨ fds h.fd = some k
  /-- The messages received. -/
  queue : ∀ c ∈ h.queue, c = k
  /-- The message being evaluated. -/
  eval : ∀ c, h.eval = some c → c = k

/-- An open number stands for the handler's own connection. -/
theorem ClientHandler.Owns.eq_of_open {fds : Fd → Option Conn} {k c : Conn} {h : ClientHandler}
    (hown : h.Owns fds k) (hrun : h.running) (hc : fds h.fd = some c) : c = k := by
  rcases hown.fd hrun with hno | hyes
  · rw [hno] at hc
    cases hc
  · exact Option.some.inj (hc.symm.trans hyes)

/-- **Ownership of the descriptors.** -/
structure Owned (s : Server) : Prop where
  /-- No handler has the number of a connection to come. -/
  fresh : ∀ k, s.next ≤ k → s.handlers k = none
  /-- Every handler keeps to its connection. -/
  owns : ∀ k h, s.handlers k = some h → h.Owns s.fds k
  /-- So did every `recv`. -/
  reads : ∀ p ∈ s.reads, p.1 = p.2
  /-- So did every response. -/
  sent : ∀ p ∈ s.sent, p.1 = p.2

theorem Owned.safe {s : Server} (h : Owned s) : Safe s := by
  refine ⟨h.sent, ?_⟩
  intro k1 k2 c h1 h2
  exact (h.reads _ h1).trans (h.reads _ h2).symm

theorem owned_start : Owned Server.start where
  fresh _ _ := rfl
  owns _ _ h := by cases h
  reads _ h := absurd h List.not_mem_nil
  sent _ h := absurd h List.not_mem_nil

/-- Replacing a handler by one that still keeps to its connection. -/
theorem Owned.setHandler {s : Server} {k : Conn} {h h' : ClientHandler} (hs : Owned s)
    (hk : s.handlers k = some h) (hh : h'.Owns s.fds k) : Owned (s.setHandler k h') := by
  refine ⟨?_, ?_, hs.reads, hs.sent⟩
  · intro j hj
    have hjk : j ≠ k := by
      rintro rfl
      rw [hs.fresh j hj] at hk
      cases hk
    exact (update_of_ne hjk _ _).trans (hs.fresh j hj)
  · intro j h1 hj
    rcases update_eq_some hj with ⟨rfl, heq⟩ | ⟨-, hold⟩
    · exact Option.some.inj heq ▸ hh
    · exact hs.owns j h1 hold

theorem Owned.accept {s : Server} {fd : Fd} (hs : Owned s) (hfd : NotInUse s (.accept fd)) :
    Owned (s.accept fd) := by
  unfold Server.accept
  split_ifs with hfree
  swap
  · exact hs
  refine ⟨?_, ?_, hs.reads, hs.sent⟩
  · intro k hk
    have hne : k ≠ s.next := by
      intro h
      rw [h] at hk
      exact absurd hk (Nat.not_succ_le_self _)
    exact (update_of_ne hne _ _).trans (hs.fresh k (Nat.le_of_succ_le hk))
  · intro k h hk
    rcases update_eq_some hk with ⟨rfl, heq⟩ | ⟨-, hold⟩
    · -- the new handler stands on the number just given to its connection
      obtain rfl := Option.some.inj heq
      exact ⟨fun _ => .inr (update_self fd _ _), nofun, nofun⟩
    · have hown := hs.owns k h hold
      refine ⟨?_, hown.queue, hown.eval⟩
      intro hrun
      have hne : h.fd ≠ fd := hfd k h hold hrun
      have hfds : update s.fds fd (some s.next) h.fd = s.fds h.fd := update_of_ne hne _ _
      change update s.fds fd (some s.next) h.fd = none ∨ update s.fds fd (some s.next) h.fd = some k
      rw [hfds]
      exact hown.fd hrun

theorem Owned.recv {s : Server} {k : Conn} {h : ClientHandler} (hs : Owned s)
    (hk : s.handlers k = some h) (hrun : h.running) (msgs : Option ℕ) :
    Owned (s.recv k h msgs) := by
  have hown := hs.owns k h hk
  have hend : Owned (s.setHandler k { h with running := false }) :=
    hs.setHandler hk ⟨nofun, hown.queue, hown.eval⟩
  unfold Server.recv
  split
  · exact hend
  · rename_i c n hc
    obtain rfl : c = k := hown.eq_of_open hrun hc
    have hset : Owned (s.setHandler c { h with queue := List.replicate n c }) :=
      hs.setHandler hk ⟨hown.fd, fun d hd => List.eq_of_mem_replicate hd, hown.eval⟩
    refine ⟨hset.fresh, hset.owns, ?_, hset.sent⟩
    intro p hp
    rcases List.mem_append.mp hp with hp | hp
    · exact hs.reads p hp
    · rw [List.mem_singleton.mp hp]
  · split_ifs
    · exact hend
    · exact hs

theorem Owned.respond {s : Server} {k src : Conn} {h : ClientHandler} (hs : Owned s)
    (hk : s.handlers k = some h) (hrun : h.running) (hsrc : h.eval = some src) :
    Owned (s.respond k h src) := by
  have hown := hs.owns k h hk
  have hset : Owned (s.setHandler k { h with eval := none }) :=
    hs.setHandler hk ⟨hown.fd, hown.queue, nofun⟩
  unfold Server.respond
  split
  · exact hset
  · rename_i c hc
    refine ⟨hset.fresh, hset.owns, hset.reads, ?_⟩
    intro p hp
    rcases List.mem_append.mp hp with hp | hp
    · exact hs.sent p hp
    · rw [List.mem_singleton.mp hp]
      exact (hown.eq_of_open hrun hc).trans (hown.eval src hsrc).symm

theorem Owned.broadcast {s : Server} (hs : Owned s) (fails : Fd → Bool) :
    Owned (s.broadcast fails) := by
  refine ⟨hs.fresh, ?_, hs.reads, hs.sent⟩
  intro k h hk
  have hown := hs.owns k h hk
  refine ⟨?_, hown.queue, hown.eval⟩
  intro hrun
  have hfds : (s.broadcast fails).fds h.fd = none ∨ (s.broadcast fails).fds h.fd = s.fds h.fd :=
    ite_eq_or_eq ..
  rcases hfds with hclosed | hkept
  · exact .inl hclosed
  · rw [hkept]
    exact hown.fd hrun

theorem Owned.step {s : Server} {a : ServerStep} (hs : Owned s) (ha : NotInUse s a) :
    Owned (s.step a) := by
  cases a with
  | accept fd => exact hs.accept ha
  | disconnect c => exact ⟨hs.fresh, hs.owns, hs.reads, hs.sent⟩
  | recv k msgs =>
    rw [Server.step]
    split
    · exact hs
    · rename_i h hk
      split_ifs with hguard
      · exact hs.recv hk hguard.1 msgs
      · exact hs
  | load k =>
    rw [Server.step]
    split
    · exact hs
    · rename_i h hk
      split
      · exact hs
      · rename_i c q hq
        split_ifs with hguard
        · have hown := hs.owns k h hk
          have hall : ∀ d ∈ c :: q, d = k := hq ▸ hown.queue
          rw [List.forall_mem_cons] at hall
          refine hs.setHandler hk ⟨hown.fd, hall.2, ?_⟩
          intro d hd
          exact (Option.some.inj hd).symm.trans hall.1
        · exact hs
  | respond k =>
    rw [Server.step]
    split
    · exact hs
    · rename_i h hk
      split
      · exact hs
      · rename_i src hsrc
        split_ifs with hrun
        · exact hs.respond hk hrun hsrc
        · exact hs
  | broadcast fails => exact hs.broadcast fails

/-! ## Runs -/

/-- **Results go to the client that asked.**  In every run in which no accept returns the number of
a handler that is still running, every state is safe. -/
theorem results_to_sender (steps : List ServerStep)
    (h : AllSteps Server.step NotInUse Server.start steps) :
    AllStates Server.step Safe Server.start steps :=
  (h.invariant owned_start fun _ _ hs ha => hs.step ha).mono fun _ hs => hs.safe

/-! ### One number for two connections -/

/-- The peer of the first client disconnects while its script runs, a broadcast closes its number,
and the next client is accepted on it before the result is sent. -/
def reusedNumber : List ServerStep :=
  [.accept 5, .recv 0 (some 1), .load 0, .disconnect 0, .broadcast fun _ => true,
    .accept 5, .respond 0]

/-- The handler of the first client ends before the number is closed and accepted again, and the
second client gets its result. -/
def endedHandler : List ServerStep :=
  [.accept 5, .disconnect 0, .recv 0 none, .broadcast fun _ => true, .accept 5, .recv 1 (some 1),
    .load 1, .respond 1]

theorem reusedNumber_not_safe : ¬ AllStates Server.step Safe Server.start reusedNumber := by
  intro h
  have hlast := (h.run_take 7).1 (1, 0) (by decide)
  exact absurd hlast (by decide)

theorem endedHandler_safe :
    AllStates Server.step Safe Server.start endedHandler ∧
      (run Server.step Server.start endedHandler).sent = [(1, 1)] := by
  refine ⟨results_to_sender endedHandler ⟨nofun, trivial, trivial, trivial, ?_, trivial, trivial,
    trivial, trivial⟩, by decide⟩
  intro k h hk hrun
  rcases update_eq_some hk with ⟨-, heq⟩ | ⟨hne, hold⟩
  · rw [← Option.some.inj heq] at hrun
    cases hrun
  · rcases update_eq_some hold with ⟨rfl, -⟩ | ⟨-, hnone⟩
    · exact absurd rfl hne
    · cases hnone

end Socket
end CalvinHook
