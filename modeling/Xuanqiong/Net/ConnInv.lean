import Xuanqiong.Net.Coroutines

/-! What holds of a connection and its coroutines in every run: the tasks start in order, the
thread runs `recv_fn` only where it says so, and an open connection stays registered. -/
namespace Xuanqiong

theorem sendWrite_spec (rounds : List (List WriteResult)) {c d : Connection} {f : SendFn}
    (h : sendWrite c rounds = some (d, f)) :
    d.closed = c.closed ∧ f ≠ .created ∧ (f = .finished ↔ c.closed = true) := by
  induction rounds generalizing c with
  | nil => cases h
  | cons results rest ih =>
    obtain ⟨⟨b, suspend⟩, run, h⟩ := Option.bind_eq_some_iff.mp h
    have same := Connection.asyncWrite_closed run
    have suspends := Connection.asyncWrite_suspends run
    simp only at h
    split at h
    · rename_i wait
      cases h
      simp [same, suspends wait]
    · split at h
      · rename_i closed
        cases h
        exact ⟨same, nofun, by simp [← same, closed]⟩
      · rename_i opened
        split at h
        · cases h
          exact ⟨same, nofun, by simp [← same, opened]⟩
        · obtain ⟨hd, hf, hc⟩ := ih h
          rw [same] at hd hc
          exact ⟨hd, hf, hc⟩

theorem sendLoop_spec {rounds : List (List WriteResult)} {c d : Connection} {f : SendFn}
    (h : sendLoop c rounds = some (d, f)) :
    d.closed = c.closed ∧ f ≠ .created ∧ (f = .finished ↔ c.closed = true) := by
  unfold sendLoop at h
  split at h
  · rename_i closed
    cases h
    simp [closed]
  · rename_i opened
    split at h
    · cases h
      simp [opened]
    · exact sendWrite_spec rounds h

theorem resume_spec {rounds : List (List WriteResult)} {c d : Connection} {f g : SendFn}
    (h : f.resume c rounds = some (d, g)) :
    d.closed = c.closed ∧ g ≠ .created ∧ (g = .finished ↔ c.closed = true) := by
  cases f with
  | created => cases h
  | waitWrite => exact sendWrite_spec rounds h
  | write => exact sendLoop_spec h
  | finished => cases h

theorem resume_ends {f : SendFn} {c : Connection} (suspended : f.Suspended)
    (closed : c.closed = true) :
    ∃ rounds, f.resume c rounds = some (c, .finished) := by
  obtain ⟨input, output, _⟩ := c
  subst closed
  rcases suspended with rfl | rfl
  · obtain ⟨results, run⟩ : ∃ results,
        (⟨input, output, true⟩ : Connection).asyncWrite results =
          some (⟨input, output, true⟩, false) := by
      by_cases more : 0 < toInt32 (⟨input, output, true⟩ : Connection).writeBytes
      · exact ⟨[.eagain], by simp [Connection.asyncWrite, writeLoop, more, OutputBuffer.sendAdd]⟩
      · exact ⟨[], by simp [Connection.asyncWrite, writeLoop, more, OutputBuffer.sendAdd]⟩
    exact ⟨[results], by simp [SendFn.resume, sendWrite, run]⟩
  · exact ⟨[], by simp [SendFn.resume, sendLoop]⟩

section

variable {σ P X T : Type} {e : Endpoint σ P X T} {s t : ConnRun σ P T} {op : ConnOp X T}

theorem sent_interest (s : ConnRun σ P T) (r : Connection × SendFn) :
    (s.sent r).interest = none ↔ s.interest = none := by
  unfold ConnRun.sent
  split <;> simp

/- The queue holds the tasks of the coroutines that have not started, then requests. -/
inductive Queued (send : SendFn) (recv : RecvFn P) (queue : List (SpawnedTask T)) : Prop where
  | fresh (requests : List T) (hs : send = .created) (hr : recv = .created)
      (hq : queue = .sendFn :: .recvFn :: requests.map .call)
  | sending (requests : List T) (hs : send ≠ .created) (hr : recv = .created)
      (hq : queue = .recvFn :: requests.map .call)
  | started (requests : List T) (hs : send ≠ .created) (hr : recv ≠ .created)
      (hq : queue = requests.map .call)

/- What the thread does says where `recv_fn` is. -/
def Ctl.Fits (recv : RecvFn P) (interest : Option Interest) : Ctl P T → Prop
  | .recv _ | .reading _ _ | .awaiting _ _ => recv = .running
  | .idle => recv ≠ .running
  | .call _ => recv ≠ .running ∧ recv ≠ .created
  | .writable _ | .readable => recv ≠ .running ∧ recv ≠ .created ∧ interest ≠ none

structure ConnRun.Placed (e : Endpoint σ P X T) (s : ConnRun σ P T) : Prop where
  queued : Queued s.send s.recv s.queue
  opened : s.conn.closed = false → s.send ≠ .finished
  fits : s.ctl.Fits s.recv s.interest
  unregistered : s.recv = .created → s.interest = none
  registered : s.conn.closed = false → s.recv ≠ .created → s.interest ≠ none
  -- only an owner closes a connection before `recv_fn` runs, or while it is suspended and
  -- registered
  parked : s.conn.closed = true → e.owned = false →
    s.recv ≠ .created ∧ ∀ p, s.recv = .suspended p → s.interest = none

namespace ConnRun.Placed

theorem ready (h : s.Placed e) (recv : s.recv ≠ .created) : s.send ≠ .created := by
  cases h.queued with
  | fresh requests hs hr hq => exact absurd hr recv
  | sending requests hs hr hq => exact hs
  | started requests hs hr hq => exact hs

theorem requeued (h : s.Placed e) (started : s.recv ≠ .created) {send : SendFn} {recv : RecvFn P}
    (hs : send ≠ .created) (hr : recv ≠ .created) : Queued send recv s.queue := by
  cases h.queued with
  | fresh requests hs' hr' hq => exact absurd hr' started
  | sending requests hs' hr' hq => exact absurd hr' started
  | started requests hs' hr' hq => exact .started requests hs hr hq

theorem send_of_queue (h : s.Placed e) {rest : List (SpawnedTask T)}
    (queue : s.queue = .sendFn :: rest) :
    s.recv = .created ∧ ∃ requests : List T, rest = .recvFn :: requests.map .call := by
  cases h.queued with
  | fresh requests hs hr hq =>
    rw [queue] at hq
    exact ⟨hr, requests, (List.cons.inj hq).2⟩
  | sending requests hs hr hq => simp [queue] at hq
  | started requests hs hr hq => cases requests <;> simp [queue] at hq

theorem recv_of_queue (h : s.Placed e) {rest : List (SpawnedTask T)}
    (queue : s.queue = .recvFn :: rest) :
    s.send ≠ .created ∧ s.recv = .created ∧ ∃ requests : List T, rest = requests.map .call := by
  cases h.queued with
  | fresh requests hs hr hq => simp [queue] at hq
  | sending requests hs hr hq =>
    rw [queue] at hq
    exact ⟨hs, hr, requests, (List.cons.inj hq).2⟩
  | started requests hs hr hq => cases requests <;> simp [queue] at hq

theorem call_of_queue (h : s.Placed e) {request : T} {rest : List (SpawnedTask T)}
    (queue : s.queue = .call request :: rest) :
    s.recv ≠ .created ∧ ∃ requests : List T, rest = requests.map .call := by
  cases h.queued with
  | fresh requests hs hr hq => simp [queue] at hq
  | sending requests hs hr hq => simp [queue] at hq
  | started requests hs hr hq =>
    cases requests with
    | nil => simp [queue] at hq
    | cons r rs =>
      rw [queue, List.map_cons] at hq
      exact ⟨hr, rs, (List.cons.inj hq).2⟩

theorem sent (h : s.Placed e) {r : Connection × SendFn} (closed : r.1.closed = s.conn.closed)
    (ends : r.2 = .finished ↔ s.conn.closed = true) {queue : List (SpawnedTask T)} {ctl : Ctl P T}
    (queued : Queued r.2 s.recv queue) (fits : ctl.Fits s.recv (s.sent r).interest) :
    ConnRun.Placed e { s.sent r with queue := queue, ctl := ctl } where
  queued := queued
  opened hc hf := Bool.noConfusion ((ends.mp hf).symm.trans (closed.symm.trans hc))
  fits := fits
  unregistered hr := (sent_interest s r).mpr (h.unregistered hr)
  registered opened hr := by
    intro none
    exact h.registered (closed ▸ opened) hr ((sent_interest s r).mp none)
  parked hc owned := by
    obtain ⟨recv, parked⟩ := h.parked (closed ▸ hc) owned
    exact ⟨recv, fun p hp => (sent_interest s r).mpr (parked p hp)⟩

theorem after (h : s.Placed e) {next : Ctl P T} (site : s.afterResume e = some next)
    (r : Connection × SendFn) : s.recv ≠ .created ∧ next.Fits s.recv (s.sent r).interest := by
  have fits := h.fits
  unfold ConnRun.afterResume at site
  split at site
  · rename_i ctl
    rw [ctl] at fits
    split at site
    · cases site
      exact ⟨fits ▸ nofun, fits⟩
    · cases site
  · rename_i ctl
    rw [ctl] at fits
    obtain ⟨q, _, rfl⟩ := Option.map_eq_some_iff.mp site
    exact ⟨fits ▸ nofun, fits⟩
  · rename_i readable ctl
    rw [ctl] at fits
    cases site
    obtain ⟨running, created, interest⟩ := fits
    refine ⟨created, ?_⟩
    cases readable
    · exact running
    · exact ⟨running, created, fun none => interest ((sent_interest s r).mp none)⟩
  · rename_i ctl
    rw [ctl] at fits
    cases site
    exact ⟨fits.2, fits.1⟩
  · cases site
  · cases site
  · cases site

end ConnRun.Placed

theorem placed_step (h : s.Placed e) (move : ConnMove e s op t) : t.Placed e := by
  have fits := h.fits
  cases move with
  | @spawn request =>
    have queued : Queued s.send s.recv (s.queue ++ [.call request]) := by
      cases h.queued with
      | fresh requests hs hr hq => exact .fresh (requests ++ [request]) hs hr (by simp [hq])
      | sending requests hs hr hq => exact .sending (requests ++ [request]) hs hr (by simp [hq])
      | started requests hs hr hq => exact .started (requests ++ [request]) hs hr (by simp [hq])
    exact { h with queued := queued }
  | close owned =>
    exact { h with
      opened := nofun
      registered := nofun
      parked := fun _ shared => absurd owned (Bool.eq_false_iff.mp shared) }
  | startSend ctl queue run =>
    obtain ⟨closed, send, ends⟩ := sendLoop_spec run
    obtain ⟨hr, requests, rfl⟩ := h.send_of_queue queue
    rw [ctl] at fits
    refine h.sent closed ends (.sending requests send hr rfl) ?_
    simp only [ConnRun.sent, ctl]
    exact fits
  | startRecv ctl queue =>
    obtain ⟨send, _, requests, rfl⟩ := h.recv_of_queue queue
    exact {
      queued := .started requests send nofun rfl
      opened := h.opened
      fits := rfl
      unregistered := nofun
      registered := fun _ _ => nofun
      parked := fun _ _ => ⟨nofun, nofun⟩ }
  | startCall ctl queue run =>
    obtain ⟨recv, requests, rfl⟩ := h.call_of_queue queue
    have same := e.submit_closed run
    rw [ctl] at fits
    exact { h with
      queued := .started requests (h.ready recv) recv rfl
      opened := fun opened => h.opened (same ▸ opened)
      fits := ⟨fits, recv⟩
      registered := fun opened => h.registered (same ▸ opened)
      parked := fun closed => h.parked (same ▸ closed) }
  | hangUp ctl interest =>
    have recv : s.recv ≠ .created := fun hr => by simp [h.unregistered hr] at interest
    rw [ctl] at fits
    exact { h with
      opened := nofun
      fits := by rw [ctl]; exact fits
      unregistered := fun _ => rfl
      registered := nofun
      parked := fun _ _ => ⟨recv, fun _ _ => rfl⟩ }
  | writable ctl interest =>
    have recv : s.recv ≠ .created := fun hr => by simp [h.unregistered hr] at interest
    rw [ctl] at fits
    exact { h with
      fits := ⟨fits, recv, nofun⟩
      unregistered := fun hr => absurd hr recv
      registered := fun _ _ => nofun
      parked := fun closed shared => ⟨recv, fun p hp => by
        simp [(h.parked closed shared).2 p hp] at interest⟩ }
  | readable ctl interest held =>
    have recv : s.recv ≠ .created := fun hr => by simp [h.unregistered hr] at interest
    rw [ctl] at fits
    exact { h with fits := ⟨fits, recv, by simp [interest]⟩ }
  | resumeRead ctl recv =>
    have started : s.recv ≠ .created := by simp [recv]
    exact {
      queued := h.requeued started (h.ready started) nofun
      opened := h.opened
      fits := rfl
      unregistered := nofun
      registered := fun opened _ => h.registered opened started
      parked := fun _ _ => ⟨nofun, nofun⟩ }
  | resumeWrite site run =>
    obtain ⟨closed, send, ends⟩ := resume_spec run
    obtain ⟨recv, next⟩ := h.after site _
    exact h.sent closed ends (h.requeued recv send recv) next
  | read ctl waits run =>
    rw [ctl] at fits
    have running : s.recv = .running := fits
    exact { h with
      opened := fun hc => h.opened (Connection.readAll_opened run hc)
      fits := fits
      registered := fun hc => h.registered (Connection.readAll_opened run hc)
      parked := fun _ _ => ⟨running ▸ nofun, fun p hp => by simp [running] at hp⟩ }
  | proceed ctl opened =>
    rw [ctl] at fits
    exact { h with fits := fits }
  | deleted ctl closed =>
    rw [ctl] at fits
    have running : s.recv = .running := fits
    exact { h with
      fits := fits
      unregistered := fun _ => rfl
      registered := fun opened => by simp [Connection.recvAdd, closed] at opened
      parked := fun _ _ => ⟨running ▸ nofun, fun _ _ => rfl⟩ }
  | suspended ctl opened =>
    rw [ctl] at fits
    have started : s.recv ≠ .created := fits ▸ nofun
    exact {
      queued := h.requeued started (h.ready started) nofun
      opened := h.opened
      fits := nofun
      unregistered := nofun
      registered := fun _ _ => h.registered opened started
      parked := fun closed => by simp [Connection.recvAdd, opened] at closed }
  | received ctl opened =>
    rw [ctl] at fits
    exact { h with fits := fits }
  | finish ctl waits run finished =>
    rw [ctl] at fits
    have started : s.recv ≠ .created := fits ▸ nofun
    have closed := e.step_closed run
    exact {
      queued := h.requeued started (h.ready started) nofun
      opened := fun opened => by simp [closed, finished] at opened
      fits := nofun
      unregistered := nofun
      registered := fun opened => by simp [closed, finished] at opened
      parked := fun _ _ => ⟨nofun, nofun⟩ }
  | go ctl waits run finished =>
    rw [ctl] at fits
    have same := e.step_closed run
    rw [finished, Bool.or_false] at same
    exact { h with
      opened := fun opened => h.opened (same ▸ opened)
      fits := fits
      registered := fun opened => h.registered (same ▸ opened)
      parked := fun closed => h.parked (same ▸ closed) }

theorem placed_reach (h : (connMachine e).Reach s) : s.Placed e := by
  refine h.invariant ?_ (fun s op t hs hstep => placed_step hs (conn_move hstep))
  exact {
    queued := .fresh [] rfl rfl rfl
    opened := fun _ => nofun
    fits := nofun
    unregistered := fun _ => rfl
    registered := fun _ recv => absurd rfl recv
    parked := nofun }

end

end Xuanqiong
