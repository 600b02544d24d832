import Xuanqiong.Net.Kqueue
import Xuanqiong.Rpc.Poll

/-! An end of an rpc on a `KqueueExecutor`. It does what it does on an `EpollExecutor`, and so what
the end without an executor does. -/
namespace Xuanqiong

section

variable {σ P X T : Type} {e : Endpoint σ P X T}

structure KqueuedRun (σ P T : Type) where
  loop : KqueueRun σ P T
  traffic : Traffic T

def KqueueRun.exchange (s : KqueueRun σ P T) (traffic : Traffic T) : KqueueOp X T → Traffic T
  | .conn op => traffic.add (s.run.submits op) op.input (s.run.output op)
  | .kevent _ | .next => traffic

def kqueuedMachine (e : Endpoint σ P X T) : Machine (KqueuedRun σ P T) (KqueueOp X T) where
  start := ⟨(kqueueMachine e).start, ⟨[], [], []⟩⟩
  step s op := ((kqueueMachine e).step s.loop op).map fun t => ⟨t, s.loop.exchange s.traffic op⟩

theorem kqueued_histories {s t : KqueuedRun σ P T} {op : KqueueOp X T}
    (hs : (kqueuedMachine e).step s op = some t) :
    s.traffic.received <+: t.traffic.received ∧ s.traffic.sent <+: t.traffic.sent := by
  obtain ⟨r, _, rfl⟩ := Option.map_eq_some_iff.mp hs
  cases op with
  | conn op => exact ⟨List.prefix_append _ _, List.prefix_append _ _⟩
  | kevent | next => exact ⟨List.prefix_refl _, List.prefix_refl _⟩

def Endpoint.kqueue (e : Endpoint σ P X T) : Party (KqueuedRun σ P T) (KqueueOp X T) UInt8 where
  machine := kqueuedMachine e
  received s := s.traffic.received
  sent s := s.traffic.sent
  received_start := rfl
  received_grows hs := (kqueued_histories hs).1
  sent_grows hs := (kqueued_histories hs).2

/- Batches are orderly, and no `async_write` goes on after the kernel has taken something. -/
def OrderlyOnce (s : KqueuedRun σ P T) : KqueueOp X T → Prop
  | .conn op => SendsOnce ⟨s.loop.view, s.traffic⟩ op
  | .kevent events => Kevent.Orderly events
  | .next => True

structure Kqueues (e : Endpoint σ P X T) (s : KqueuedRun σ P T) (t : PollRun σ P T) : Prop where
  follows : s.loop.Follows e
  run : t.run = s.loop.view
  traffic : t.traffic = s.traffic

theorem event_silent {op : ConnOp X T} (event : op.isEvent = true) (c : ConnRun σ P T)
    (h : Traffic T) :
    h.add (c.submits op) op.input (c.output op) = h := by
  cases op with
  | event => exact h.add_nothing
  | _ => cases event

theorem event_sends_once {op : ConnOp X T} (event : op.isEvent = true) (s : PollRun σ P T) :
    SendsOnce s op := by
  cases op with
  | event => trivial
  | _ => cases event

theorem kqueue_refines (e : Endpoint σ P X T) :
    Party.Refines e.kqueue e.poll OrderlyOnce SendsOnce (Kqueues e) where
  start := ⟨kqueue_start e, rfl, rfl⟩
  received related := congrArg Traffic.received related.traffic
  sent related := congrArg Traffic.sent related.traffic
  step := by
    rintro s op t ⟨c, _⟩ ⟨follows, rfl, rfl⟩ once hs
    obtain ⟨r, step, rfl⟩ := Option.map_eq_some_iff.mp hs
    have within : s.loop.Within (fun _ _ => True) op := by
      cases op with
      | conn => trivial
      | kevent => exact once
      | next => trivial
    obtain ⟨after, matched⟩ := kqueue_step follows within step
    cases op with
    | conn op =>
      refine Or.inr ⟨op, _, once, Option.map_eq_some_iff.mpr ⟨_, matched, rfl⟩, after, rfl, rfl⟩
    | kevent | next =>
      rcases matched with same | ⟨op, event, step⟩
      · exact Or.inl ⟨after, same.symm, rfl⟩
      · refine Or.inr ⟨op, _, event_sends_once event _,
          Option.map_eq_some_iff.mpr ⟨_, step, rfl⟩, after, rfl, ?_⟩
        exact event_silent event _ _

theorem kqueue_simulates (leaves : e.LeavesRoom) (announces : e.Announces) :
    Party.Simulates e.kqueue e.stream OrderlyOnce fun s u => ∃ t, Kqueues e s t ∧ Polls e t u :=
  (kqueue_refines e).simulates (poll_simulates leaves announces)

end

namespace Rpc

variable {Args R D Msg M Req Resp : Type}

def kqueued (g : Rpc Args R D Msg M Req Resp) :
    Machine (KqueuedRun (ClientState R D Msg) ClientPoint (MethodCall Args R D) ×
      KqueuedRun (List (Call M Req Resp)) (RecvPoint M) Empty)
      (KqueueOp (Nat → UInt8) (MethodCall Args R D) ⊕ KqueueOp ((Nat → UInt8) × Resp) Empty) :=
  g.channel.endpoint.kqueue.joined g.server.endpoint.kqueue

/-- On kqueue too, as long as its batches are orderly, the calls whose tasks have run are
answered in order. -/
theorem kqueued_calls_are_answered_in_order [Nonempty Resp] (g : Rpc Args R D Msg M Req Resp)
    (s : KqueuedRun (ClientState R D Msg) ClientPoint (MethodCall Args R D) ×
      KqueuedRun (List (Call M Req Resp)) (RecvPoint M) Empty)
    (h : g.kqueued.ReachWith (Party.Both OrderlyOnce OrderlyOnce) s)
    (fits : g.Fits (numbered s.1.traffic.submitted) s.2.loop.run.app) :
    g.InOrder (numbered s.1.traffic.submitted) s.2.loop.run.app s.1.loop.run.app := by
  have client := kqueue_simulates g.channel.leavesRoom (g.channel.announces (D := D))
  have server := kqueue_simulates g.server.leavesRoom g.server.announces
  obtain ⟨u, v, ⟨c, atClient, left⟩, ⟨d, atServer, right⟩, answered⟩ :=
    inOrder_of_simulates client server h
  rw [left.traffic, right.app, left.app, atClient.traffic, atClient.run, atServer.run] at answered
  exact answered fits

/- One call. The channel writes its request in two pieces, the second in a batch of two events. -/
theorem kqueued_calls_are_answered_in_order_in_batches :
    ∃ s, byteRpc.kqueued.ReachWith (Party.Both OrderlyOnce OrderlyOnce) s ∧
      s.1.traffic.submitted = [byteCall 5] ∧ s.1.loop.run.app.endings = [(0, .run () () 50)] ∧
      byteRpc.InOrder (numbered s.1.traffic.submitted) s.2.loop.run.app s.1.loop.run.app := by
  obtain ⟨s, hs, submitted, endings, served⟩ : ∃ s, byteRpc.kqueued.run byteRpc.kqueued.start
      [.inl (.conn (.startSend [])), .inl (.conn .startRecv), .inl (.conn (.read [.eagain])),
        .inl (.conn .proceed), .inl (.conn .await), .inl (.conn (.spawn (byteCall 5))),
        .inl (.conn (.startCall fun _ => 0)), .inl (.conn (.resumeWrite [[.accepted 7, .eagain]])),
        .inr (.conn (.startSend [])), .inr (.conn .startRecv),
        .inr (.conn (.read [.data [1, 0, 0, 0, 0, 1, 0], .eagain])), .inr (.conn .proceed),
        .inr (.conn .await), .inr (.conn (.step (fun _ => 0, 50))),
        .inr (.conn (.step (fun _ => 0, 50))), .inr (.conn (.read [.eagain])),
        .inr (.conn .proceed), .inr (.conn .await),
        .inl (.kevent [⟨.write, false⟩, ⟨.read, false⟩]), .inl .next,
        .inl (.conn (.resumeWrite [[.accepted 3]])), .inl .next, .inl (.conn .resumeRead),
        .inl (.conn (.read [.eagain])), .inl (.conn .proceed), .inl (.conn .await),
        .inr (.kevent [⟨.read, false⟩]), .inr .next, .inr (.conn .resumeRead),
        .inr (.conn (.read [.data [0, 0, 5], .eagain])), .inr (.conn .proceed), .inr (.conn .await),
        .inr (.conn (.step (fun _ => 0, 50))), .inr (.conn (.step (fun _ => 0, 50))),
        .inr (.conn (.resumeWrite [[.accepted 10]])), .inl (.kevent [⟨.read, false⟩]), .inl .next,
        .inl (.conn .resumeRead),
        .inl (.conn (.read [.data [1, 0, 0, 0, 0, 1, 0, 0, 0, 50], .eagain])),
        .inl (.conn .proceed), .inl (.conn .await), .inl (.conn (.step fun _ => 0)),
        .inl (.conn (.step fun _ => 0)), .inl (.conn (.step fun _ => 0)),
        .inl (.conn (.step fun _ => 0))] = some s ∧
      s.1.traffic.submitted = [byteCall 5] ∧ s.1.loop.run.app.endings = [(0, .run () () 50)] ∧
      s.2.loop.run.app = [⟨ClientChannel.reqHeader 0 (byteCall 5), (), 5, 50⟩] :=
      ⟨_, rfl, rfl, rfl, rfl⟩
  have reached : byteRpc.kqueued.ReachWith (Party.Both OrderlyOnce OrderlyOnce) s := by
    refine Machine.reachWith_run .start (Machine.along_of_forall ?_ _) hs
    simp [Party.Both, OrderlyOnce, Kevent.Orderly, SendsOnce, TakesOnce, accepts]
  have fits : byteRpc.Fits (numbered s.1.traffic.submitted) s.2.loop.run.app := by
    rw [submitted, served]
    exact byteRpc_fits
  exact ⟨s, reached, submitted, endings, kqueued_calls_are_answered_in_order byteRpc s reached fits⟩

end Rpc

end Xuanqiong
