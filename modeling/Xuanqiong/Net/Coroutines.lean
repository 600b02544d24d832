import Mathlib.Logic.Relation
import Xuanqiong.Base.Machine
import Xuanqiong.Net.Connection

/-! A polled connection with its two coroutines on the thread of an `EpollExecutor`. `send_fn`
is the same at both ends of an rpc; of `recv_fn` only the waiting for bytes is, and what it does
in between is a parameter. Whatever runs on the thread is followed from one suspension or
call of `resume_write` to the next. -/
namespace Xuanqiong

/- A finished coroutine has destroyed its frame. -/
inductive SendFn where
  | created
  | waitWrite
  | write
  | finished
  deriving DecidableEq

def SendFn.Suspended (f : SendFn) : Prop := f = .waitWrite ∨ f = .write

/- `send_fn` from its `async_write` on, and from the condition of its loop on, up to the next
suspension or to its end. Each `async_write` takes its results from the list. -/
def sendWrite (c : Connection) : List (List WriteResult) → Option (Connection × SendFn)
  | [] => none
  | results :: rest =>
    (c.asyncWrite results).bind fun (c, suspend) =>
      if suspend then some (c, .write)
      else if c.closed then some (c, .finished)
      else if c.writeBytes = 0 then some (c, .waitWrite)
      else sendWrite c rest

def sendLoop (c : Connection) (rounds : List (List WriteResult)) : Option (Connection × SendFn) :=
  if c.closed then some (c, .finished)
  else if c.writeBytes = 0 then some (c, .waitWrite)
  else sendWrite c rounds

/- `resume_write`. The handle of a coroutine that never suspended or that is gone has no meaning. -/
def SendFn.resume (c : Connection) (rounds : List (List WriteResult)) :
    SendFn → Option (Connection × SendFn)
  | .waitWrite => sendWrite c rounds
  | .write => sendLoop c rounds
  | .created | .finished => none

inductive RecvFn (P : Type) where
  | created
  | running
  | suspended (point : P)
  | finished

/- What the connection is registered for with epoll, if at all. -/
inductive Interest where
  | read
  | readWrite
  deriving DecidableEq

inductive SpawnedTask (T : Type) where
  | sendFn
  | recvFn
  | call (request : T)

/-- What the thread is doing with this connection: nothing, running `recv_fn` at a point or in
an `async_read` that got `n` bytes, before or after its test of `closed()`, or being about to
call `resume_write` for EPOLLOUT, `resume_read` for EPOLLIN, or `resume_write` in `CallMethod`. -/
inductive Ctl (P T : Type) where
  | idle
  | recv (point : P)
  | reading (point : P) (n : Nat)
  | awaiting (point : P) (n : Nat)
  | writable (readable : Bool)
  | readable
  | call (request : T)

/-- What is above the connection. `waits` are the conditions of the loops around `async_read`,
`replies` the points at which `recv_fn` calls `resume_write`, each with the next one, and `step`
goes from one point to the next, where `X` are the choices that are not its own. `submit` is a
task of `CallMethod` before its `resume_write`. `owned` says that the connection outlives the
coroutines and that its owner may close it. -/
structure Endpoint (σ P X T : Type) where
  app : σ
  first : P
  waits : Connection → P → Bool
  replies : P → Option P
  finished : P → Bool
  step : X → σ → Connection → P → Option (σ × Connection × P)
  submit : (Nat → UInt8) → T → σ → Connection → Option (σ × Connection)
  owned : Bool
  step_closed : ∀ {x a c p a' c' p'}, step x a c p = some (a', c', p') →
    c'.closed = (c.closed || finished p')
  submit_closed : ∀ {junk t a c a' c'}, submit junk t a c = some (a', c') → c'.closed = c.closed

structure ConnRun (σ P T : Type) where
  conn : Connection
  app : σ
  interest : Option Interest
  send : SendFn
  recv : RecvFn P
  queue : List (SpawnedTask T)
  ctl : Ctl P T

inductive ConnOp (X T : Type) where
  | spawn (request : T)
  | close
  | startSend (rounds : List (List WriteResult))
  | startRecv
  | startCall (junk : Nat → UInt8)
  | event (hup out readable : Bool)
  | resumeRead
  | resumeWrite (rounds : List (List WriteResult))
  | read (results : List ReadResult)
  | proceed
  | await
  | step (choice : X)

def ConnOp.isTask {X T : Type} : ConnOp X T → Bool
  | .startSend _ | .startRecv | .startCall _ => true
  | _ => false

def ConnOp.isEvent {X T : Type} : ConnOp X T → Bool
  | .event _ _ _ => true
  | _ => false

namespace ConnRun

variable {σ P X T : Type}

/- `send_fn` is left at `r`; suspending in `WriteAwaiter` asks for EPOLLOUT too, which epoll
only does for what is registered. -/
def sent (s : ConnRun σ P T) (r : Connection × SendFn) : ConnRun σ P T :=
  { s with
    conn := r.1
    send := r.2
    interest := if r.2 = .write then s.interest.map fun _ => .readWrite else s.interest }

/- The calls of `resume_write`, each with what its caller does next. -/
def afterResume (e : Endpoint σ P X T) (s : ConnRun σ P T) : Option (Ctl P T) :=
  match s.ctl with
  | .reading p n => if s.conn.closed then some (.awaiting p n) else none
  | .recv p => (e.replies p).map .recv
  | .writable readable => some (if readable then .readable else .idle)
  | .call _ => some .idle
  | .idle | .awaiting _ _ | .readable => none

/- Both coroutines of a server, each of which holds the connection, have ended. -/
def ended (e : Endpoint σ P X T) (s : ConnRun σ P T) : Bool :=
  !e.owned && s.send = .finished && (match s.recv with | .finished => true | _ => false)

/- The loop of the executor over one event of this connection. When both coroutines have ended, an
event has nobody left to resume. -/
def event (e : Endpoint σ P X T) (s : ConnRun σ P T) (hup out readable : Bool) :
    Option (ConnRun σ P T) :=
  match s.ctl, s.interest with
  | .idle, some i =>
    if s.ended e then none
    else if hup then some { s with conn := s.conn.close, interest := none }
    else if out && i = .readWrite then
      some { s with interest := some .read, ctl := .writable readable }
    else if readable then some { s with ctl := .readable }
    else none
  | _, _ => none

/- The end of `async_read`, and `ReadAwaiter::await_suspend`. -/
def await (s : ConnRun σ P T) (p : P) (n : Nat) : ConnRun σ P T :=
  if s.conn.closed then { s with conn := s.conn.recvAdd n, interest := none, ctl := .recv p }
  else if n = 0 then { s with conn := s.conn.recvAdd n, recv := .suspended p, ctl := .idle }
  else { s with conn := s.conn.recvAdd n, ctl := .recv p }

def goes (e : Endpoint σ P X T) (s : ConnRun σ P T) (r : σ × Connection × P) : ConnRun σ P T :=
  if e.finished r.2.2 then { s with app := r.1, conn := r.2.1, recv := .finished, ctl := .idle }
  else { s with app := r.1, conn := r.2.1, ctl := .recv r.2.2 }

end ConnRun

/-- Tasks are taken in the order in which they were spawned. -/
def connMachine {σ P X T : Type} (e : Endpoint σ P X T) : Machine (ConnRun σ P T) (ConnOp X T) where
  start := ⟨Connection.init, e.app, none, .created, .created, [.sendFn, .recvFn], .idle⟩
  step s
    | .spawn t => some { s with queue := s.queue ++ [.call t] }
    | .close => if e.owned then some { s with conn := s.conn.close } else none
    | .startSend rounds =>
      match s.ctl, s.queue with
      | .idle, .sendFn :: rest =>
        (sendLoop s.conn rounds).map fun r => { s.sent r with queue := rest }
      | _, _ => none
    | .startRecv =>
      match s.ctl, s.queue with
      | .idle, .recvFn :: rest =>
        some { s with
          queue := rest, recv := .running, interest := some (s.interest.getD .read)
          ctl := .recv e.first }
      | _, _ => none
    | .startCall junk =>
      match s.ctl, s.queue with
      | .idle, .call t :: rest =>
        (e.submit junk t s.app s.conn).map fun (a, c) =>
          { s with app := a, conn := c, queue := rest, ctl := .call t }
      | _, _ => none
    | .event hup out readable => s.event e hup out readable
    | .resumeRead =>
      match s.ctl, s.recv with
      | .readable, .suspended p => some { s with recv := .running, ctl := .recv p }
      | _, _ => none
    | .resumeWrite rounds =>
      (s.afterResume e).bind fun ctl =>
        (s.send.resume s.conn rounds).map fun r => { s.sent r with ctl := ctl }
    | .read results =>
      match s.ctl with
      | .recv p =>
        if e.waits s.conn p then
          (s.conn.readAll results).map fun (c, n) => { s with conn := c, ctl := .reading p n }
        else none
      | _ => none
    | .proceed =>
      match s.ctl with
      | .reading p n => if s.conn.closed then none else some { s with ctl := .awaiting p n }
      | _ => none
    | .await =>
      match s.ctl with
      | .awaiting p n => some (s.await p n)
      | _ => none
    | .step x =>
      match s.ctl with
      | .recv p =>
        if e.waits s.conn p || (e.replies p).isSome then none
        else (e.step x s.app s.conn p).map (s.goes e)
      | _ => none

section

variable {σ P X T : Type} {e : Endpoint σ P X T} {s t : ConnRun σ P T} {op : ConnOp X T}

/-- The steps, each with what it needs and what it leaves. -/
inductive ConnMove (e : Endpoint σ P X T) (s : ConnRun σ P T) : ConnOp X T → ConnRun σ P T →
    Prop where
  | spawn {request : T} : ConnMove e s (.spawn request) { s with
      queue := s.queue ++ [.call request] }
  | close (owned : e.owned = true) : ConnMove e s .close { s with conn := s.conn.close }
  | startSend {rounds r rest} (ctl : s.ctl = .idle) (queue : s.queue = .sendFn :: rest)
      (run : sendLoop s.conn rounds = some r) :
      ConnMove e s (.startSend rounds) { s.sent r with queue := rest }
  | startRecv {rest} (ctl : s.ctl = .idle) (queue : s.queue = .recvFn :: rest) :
      ConnMove e s .startRecv { s with
        queue := rest, recv := .running, interest := some (s.interest.getD .read)
        ctl := .recv e.first }
  | startCall {junk request rest a c} (ctl : s.ctl = .idle)
      (queue : s.queue = .call request :: rest)
      (run : e.submit junk request s.app s.conn = some (a, c)) :
      ConnMove e s (.startCall junk) { s with
        app := a, conn := c, queue := rest, ctl := .call request }
  | hangUp {out readable i} (ctl : s.ctl = .idle) (interest : s.interest = some i) :
      ConnMove e s (.event true out readable) { s with conn := s.conn.close, interest := none }
  | writable {readable} (ctl : s.ctl = .idle) (interest : s.interest = some .readWrite) :
      ConnMove e s (.event false true readable)
        { s with interest := some .read, ctl := .writable readable }
  | readable {out i} (ctl : s.ctl = .idle) (interest : s.interest = some i)
      (held : s.ended e = false) : ConnMove e s (.event false out true) { s with ctl := .readable }
  | resumeRead {p} (ctl : s.ctl = .readable) (recv : s.recv = .suspended p) :
      ConnMove e s .resumeRead { s with recv := .running, ctl := .recv p }
  | resumeWrite {rounds r next} (site : s.afterResume e = some next)
      (run : s.send.resume s.conn rounds = some r) :
      ConnMove e s (.resumeWrite rounds) { s.sent r with ctl := next }
  | read {results p c n} (ctl : s.ctl = .recv p) (waits : e.waits s.conn p = true)
      (run : s.conn.readAll results = some (c, n)) :
      ConnMove e s (.read results) { s with conn := c, ctl := .reading p n }
  | proceed {p n} (ctl : s.ctl = .reading p n) (opened : s.conn.closed = false) :
      ConnMove e s .proceed { s with ctl := .awaiting p n }
  | deleted {p n} (ctl : s.ctl = .awaiting p n) (closed : s.conn.closed = true) :
      ConnMove e s .await { s with conn := s.conn.recvAdd n, interest := none, ctl := .recv p }
  | suspended {p} (ctl : s.ctl = .awaiting p 0) (opened : s.conn.closed = false) :
      ConnMove e s .await { s with conn := s.conn.recvAdd 0, recv := .suspended p, ctl := .idle }
  | received {p n} (ctl : s.ctl = .awaiting p n) (opened : s.conn.closed = false) :
      ConnMove e s .await { s with conn := s.conn.recvAdd n, ctl := .recv p }
  | finish {x p a c q} (ctl : s.ctl = .recv p) (waits : e.waits s.conn p = false)
      (run : e.step x s.app s.conn p = some (a, c, q)) (finished : e.finished q = true)
      (silent : e.replies p = none) :
      ConnMove e s (.step x) { s with app := a, conn := c, recv := .finished, ctl := .idle }
  | go {x p a c q} (ctl : s.ctl = .recv p) (waits : e.waits s.conn p = false)
      (run : e.step x s.app s.conn p = some (a, c, q)) (finished : e.finished q = false)
      (silent : e.replies p = none) :
      ConnMove e s (.step x) { s with app := a, conn := c, ctl := .recv q }

theorem event_move {hup out readable : Bool} (h : s.event e hup out readable = some t) :
    ConnMove e s (.event hup out readable) t := by
  unfold ConnRun.event at h
  split at h
  · rename_i i ctl interest
    split at h
    · cases h
    · rename_i held
      split at h
      · rename_i hup
        cases hup
        cases h
        exact .hangUp ctl interest
      · rename_i nohup
        split at h
        · rename_i out
          simp only [Bool.and_eq_true, decide_eq_true_eq] at out
          obtain ⟨rfl, rfl⟩ := out
          cases h
          cases Bool.eq_false_iff.mpr nohup
          exact .writable ctl interest
        · split at h
          · rename_i readable
            cases readable
            cases h
            cases Bool.eq_false_iff.mpr nohup
            exact .readable ctl interest (Bool.eq_false_iff.mpr held)
          · cases h
  · cases h

theorem await_move {p : P} {n : Nat} (ctl : s.ctl = .awaiting p n) :
    ConnMove e s .await (s.await p n) := by
  unfold ConnRun.await
  split
  · exact .deleted ctl ‹_›
  · rename_i opened
    split
    · rename_i zero
      subst zero
      exact .suspended ctl (Bool.eq_false_iff.mpr opened)
    · exact .received ctl (Bool.eq_false_iff.mpr opened)

theorem goes_move {x : X} {p : P} {r : σ × Connection × P} (ctl : s.ctl = .recv p)
    (waits : e.waits s.conn p = false) (silent : e.replies p = none)
    (run : e.step x s.app s.conn p = some r) : ConnMove e s (.step x) (s.goes e r) := by
  obtain ⟨a, c, q⟩ := r
  unfold ConnRun.goes
  split
  · exact .finish ctl waits run ‹_› silent
  · exact .go ctl waits run (Bool.eq_false_iff.mpr ‹_›) silent

theorem conn_move (h : (connMachine e).step s op = some t) : ConnMove e s op t := by
  cases op with
  | spawn request =>
    cases h
    exact .spawn
  | close =>
    simp only [connMachine, Option.ite_none_right_eq_some, Option.some.injEq] at h
    obtain ⟨owned, rfl⟩ := h
    exact .close owned
  | startSend rounds =>
    simp only [connMachine] at h
    split at h
    · obtain ⟨r, run, rfl⟩ := Option.map_eq_some_iff.mp h
      exact .startSend ‹_› ‹_› run
    · cases h
  | startRecv =>
    simp only [connMachine] at h
    split at h
    · cases h
      exact .startRecv ‹_› ‹_›
    · cases h
  | startCall junk =>
    simp only [connMachine] at h
    split at h
    · obtain ⟨r, run, rfl⟩ := Option.map_eq_some_iff.mp h
      exact .startCall ‹_› ‹_› run
    · cases h
  | event hup out readable => exact event_move h
  | resumeRead =>
    simp only [connMachine] at h
    split at h
    · cases h
      exact .resumeRead ‹_› ‹_›
    · cases h
  | resumeWrite rounds =>
    obtain ⟨next, site, h⟩ := Option.bind_eq_some_iff.mp h
    obtain ⟨r, run, rfl⟩ := Option.map_eq_some_iff.mp h
    exact .resumeWrite site run
  | read results =>
    simp only [connMachine] at h
    split at h
    · simp only [Option.ite_none_right_eq_some] at h
      obtain ⟨r, run, rfl⟩ := Option.map_eq_some_iff.mp h.2
      exact .read ‹_› h.1 run
    · cases h
  | proceed =>
    simp only [connMachine] at h
    split at h
    · simp only [Option.ite_none_left_eq_some, Option.some.injEq] at h
      obtain ⟨opened, rfl⟩ := h
      exact .proceed ‹_› (Bool.eq_false_iff.mpr opened)
    · cases h
  | await =>
    simp only [connMachine] at h
    split at h
    · cases h
      exact await_move ‹_›
    · cases h
  | step x =>
    simp only [connMachine] at h
    split at h
    · simp only [Option.ite_none_left_eq_some, Bool.or_eq_true, not_or] at h
      obtain ⟨r, run, rfl⟩ := Option.map_eq_some_iff.mp h.2
      exact goes_move ‹_› (Bool.eq_false_iff.mpr h.1.1) (Option.not_isSome_iff_eq_none.mp h.1.2) run
    · cases h

def ConnRun.interestAfter (s t : ConnRun σ P T) (i : Option Interest) : ConnOp X T → Option Interest
  | .startRecv => some (i.getD .read)
  | .startSend _ | .resumeWrite _ => if t.send = .write then i.map fun _ => .readWrite else i
  | .await => if s.conn.closed then none else i
  | _ => i

/-- What is registered with epoll, and the tasks further back in the queue, make no difference to
the coroutines. -/
theorem framed_step (i : Option Interest) (more : List (SpawnedTask T))
    (noEvent : ∀ hup out readable, op ≠ .event hup out readable)
    (noSpawn : ∀ request, op ≠ .spawn request) (hs : (connMachine e).step s op = some t) :
    (connMachine e).step { s with interest := i, queue := s.queue ++ more } op =
      some { t with interest := s.interestAfter t i op, queue := t.queue ++ more } := by
  obtain ⟨conn, app, old, send, recv, queue, ctl⟩ := s
  cases op with
  | event hup out readable => exact absurd rfl (noEvent hup out readable)
  | spawn request => exact absurd rfl (noSpawn request)
  | close =>
    simp only [connMachine, Option.ite_none_right_eq_some, Option.some.injEq] at hs
    obtain ⟨owned, rfl⟩ := hs
    simp only [connMachine, owned, if_true]
    rfl
  | startSend rounds =>
    simp only [connMachine] at hs ⊢
    split at hs
    · obtain ⟨r, run, rfl⟩ := Option.map_eq_some_iff.mp hs
      simp only [List.cons_append, run, Option.map_some]
      rfl
    · cases hs
  | startRecv =>
    simp only [connMachine] at hs ⊢
    split at hs
    · cases hs
      rfl
    · cases hs
  | startCall junk =>
    simp only [connMachine] at hs ⊢
    split at hs
    · obtain ⟨r, run, rfl⟩ := Option.map_eq_some_iff.mp hs
      simp only [List.cons_append, run, Option.map_some]
      rfl
    · cases hs
  | resumeRead =>
    simp only [connMachine] at hs ⊢
    split at hs
    · cases hs
      rfl
    · cases hs
  | resumeWrite rounds =>
    obtain ⟨next, site, hs⟩ := Option.bind_eq_some_iff.mp hs
    obtain ⟨r, run, rfl⟩ := Option.map_eq_some_iff.mp hs
    exact Option.bind_eq_some_iff.mpr ⟨next, site, Option.map_eq_some_iff.mpr ⟨r, run, rfl⟩⟩
  | read results =>
    simp only [connMachine] at hs ⊢
    split at hs
    · simp only [Option.ite_none_right_eq_some] at hs
      obtain ⟨r, run, rfl⟩ := Option.map_eq_some_iff.mp hs.2
      simp only [hs.1, run, if_true, Option.map_some]
      rfl
    · cases hs
  | proceed =>
    simp only [connMachine] at hs ⊢
    split at hs
    · simp only [Option.ite_none_left_eq_some, Option.some.injEq] at hs
      obtain ⟨opened, rfl⟩ := hs
      simp only [opened]
      rfl
    · cases hs
  | await =>
    simp only [connMachine] at hs ⊢
    split at hs
    · cases hs
      simp only [ConnRun.await, ConnRun.interestAfter]
      split
      · rfl
      · split <;> rfl
    · cases hs
  | step x =>
    simp only [connMachine] at hs ⊢
    split at hs
    · simp only [Option.ite_none_left_eq_some] at hs
      obtain ⟨r, run, rfl⟩ := Option.map_eq_some_iff.mp hs.2
      rw [if_neg hs.1, run]
      simp only [Option.map_some, Option.some.injEq, ConnRun.goes]
      split <;> rfl
    · cases hs

theorem interestAfter_self (noEvent : ∀ hup out readable, op ≠ .event hup out readable)
    (noSpawn : ∀ request, op ≠ .spawn request) (hs : (connMachine e).step s op = some t) :
    s.interestAfter t s.interest op = t.interest := by
  have framed := framed_step s.interest [] noEvent noSpawn hs
  simp only [List.append_nil] at framed
  exact congrArg ConnRun.interest (Option.some.inj (framed.symm.trans hs))

end

end Xuanqiong
