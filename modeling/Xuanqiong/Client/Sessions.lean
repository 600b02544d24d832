import Mathlib.Data.List.Nodup
import Mathlib.Data.List.Count
import Xuanqiong.Client.RecvFn
import Xuanqiong.Net.Frames

/-! The session table of a channel over whole runs, in which calls are made and responses come in
any order and number: which sessions were entered, which were ended, and which are still there. -/
namespace Xuanqiong

/- The entries of a history that carry the id `i`, in order. -/
def under {α : Type} (i : Int64) (entries : List (Int64 × α)) : List α :=
  entries.filterMap fun e => if e.1 = i then some e.2 else none

theorem under_append {α : Type} (i : Int64) (xs ys : List (Int64 × α)) :
    under i (xs ++ ys) = under i xs ++ under i ys := List.filterMap_append

theorem under_self {α : Type} (i : Int64) (a : α) : under i [(i, a)] = [a] := by simp [under]

theorem under_other {α : Type} {i j : Int64} (other : j ≠ i) (a : α) : under i [(j, a)] = [] := by
  simp [under, other]

def Ending.session {R D Msg : Type} : Ending R D Msg → Session R D
  | .run done response _ => ⟨response, some done⟩
  | .delete response => ⟨response, none⟩

theorem Session.finish_session {R D Msg : Type} (session : Session R D) (message : Msg) :
    (session.finish message).session = session := by
  obtain ⟨response, done⟩ := session
  cases done with
  | none => rfl
  | some done => rfl

namespace ClientState

variable {R D Msg : Type}

/- The session of `id` is taken off the table, and ended if its response was parsed. -/
def settle (st : ClientState R D Msg) (id : Int64) (session : Session R D) (parsed : Option Msg) :
    ClientState R D Msg :=
  { st with
    id2session := Function.update st.id2session id none
    endings := st.endings ++ (parsed.map fun message => (id, session.finish message)).toList }

def enter (st : ClientState R D Msg) (session : Session R D) : ClientState R D Msg :=
  { st with
    requestId := st.requestId + 1
    id2session := Function.update st.id2session st.requestId (some session)
    made := st.made ++ [(st.requestId, session)] }

/- What is known of the sessions of an id: those that were ended, then the one in the table. -/
def account (st : ClientState R D Msg) (i : Int64) : List (Session R D) :=
  (under i st.endings).map Ending.session ++ (st.id2session i).toList

theorem account_settle {st : ClientState R D Msg} {id : Int64} {session : Session R D}
    (found : st.id2session id = some session) (message : Msg) (i : Int64) :
    (st.settle id session (some message)).account i = st.account i := by
  by_cases same : id = i
  · subst same
    simp [account, settle, under_append, under_self, Session.finish_session, found]
  · simp [account, settle, under_append, under_other same, Function.update_of_ne (Ne.symm same)]

theorem account_drop {st : ClientState R D Msg} {id : Int64} {session : Session R D}
    (found : st.id2session id = some session) (i : Int64) :
    ((st.settle id session none).account i).Sublist (st.account i) := by
  by_cases same : id = i
  · subst same
    simp [account, settle, found]
  · simp [account, settle, Function.update_of_ne (Ne.symm same)]

theorem account_enter_other (st : ClientState R D Msg) (session : Session R D) {i : Int64}
    (other : st.requestId ≠ i) : (st.enter session).account i = st.account i := by
  simp [account, enter, Function.update_of_ne (Ne.symm other)]

theorem account_enter_self (st : ClientState R D Msg) (session : Session R D) :
    (st.enter session).account st.requestId =
      (under st.requestId st.endings).map Ending.session ++ [session] := by
  simp [account, enter]

end ClientState

namespace ClientChannel

variable {Req R D Msg : Type} {ch : ClientChannel Req R Msg}

/- `recv_fn` takes the session of the frame before it off the table, with what the payload was. -/
def Answers (ch : ClientChannel Req R Msg) (st : ClientState R D Msg) (c : Connection)
    (p : ClientPoint) (st' : ClientState R D Msg) : Prop :=
  ∃ h n session bytes d, p = .response h n ∧ ¬ (c.closed = true ∧ c.readBytes < n) ∧
    st.id2session h.requestId = some session ∧ c.pull n = some (bytes, d) ∧
    st' = st.settle h.requestId session (ch.parseResponse session.response bytes)

theorem handleResponse_effect {st st' : ClientState R D Msg} {c d : Connection}
    {h : Header} {n : Nat} {q : ClientPoint} (goes : ¬ (c.closed = true ∧ c.readBytes < n))
    (hs : ch.handleResponse st c h n = some (st', d, q)) :
    d.writeBuf = c.writeBuf ∧ (st' = st ∨ ch.Answers st c (.response h n) st') := by
  unfold handleResponse at hs
  split at hs
  · cases hs
    exact ⟨rfl, Or.inl rfl⟩
  · rename_i session found
    obtain ⟨⟨bytes, b⟩, hb, hs⟩ := Option.map_eq_some_iff.mp hs
    have same := Connection.pull_writeBuf hb
    simp only at hs
    split at hs
    · rename_i fails
      cases hs
      exact ⟨same, Or.inr ⟨h, n, session, bytes, d, rfl, goes, found, hb, by
        simp [ClientState.settle, fails]⟩⟩
    · rename_i message parses
      cases hs
      exact ⟨same, Or.inr ⟨h, n, session, bytes, b, rfl, goes, found, hb, by
        simp [ClientState.settle, parses]⟩⟩

theorem enough_of_goes {c : Connection} {h : Header} {n : Nat}
    (goes : waits c (.response h n) = false) (uncut : ¬ (c.closed = true ∧ c.readBytes < n)) :
    n ≤ c.readBytes := by
  by_contra short
  have short : c.readBytes < n := by omega
  cases closed : c.closed with
  | false => simp [waits, short, closed] at goes
  | true => exact uncut ⟨closed, short⟩

theorem recvStep_effect {memory : Nat → UInt8} {st st' : ClientState R D Msg} {c d : Connection}
    {p q : ClientPoint} (hs : ch.recvStep memory st c p = some (st', d, q)) :
    d.writeBuf = c.writeBuf ∧ (st' = st ∨ ch.Answers st c p st') := by
  cases p with
  | headerLen | responseLen h =>
    simp only [recvStep] at hs
    split at hs
    · cases hs
      exact ⟨rfl, Or.inl rfl⟩
    · obtain ⟨⟨v, b⟩, hv, hs⟩ := Option.map_eq_some_iff.mp hs
      have same := Connection.fetchUint32_writeBuf hv
      cases v <;>
      · cases hs
        exact ⟨same, Or.inl rfl⟩
  | header n =>
    simp only [recvStep] at hs
    split at hs
    · cases hs
      exact ⟨rfl, Or.inl rfl⟩
    · obtain ⟨⟨bytes, b⟩, hb, hs⟩ := Option.map_eq_some_iff.mp hs
      have same := Connection.pull_writeBuf hb
      simp only at hs
      split at hs <;>
      · cases hs
        exact ⟨same, Or.inl rfl⟩
  | response h n =>
    simp only [recvStep] at hs
    split at hs
    · cases hs
      exact ⟨rfl, Or.inl rfl⟩
    · rename_i uncut
      exact handleResponse_effect uncut hs
  | done => cases hs

end ClientChannel

/- `handled` are the headers of the turns of the loop that came to their end, `calls` the calls
with the ids they got, `sent` what `send_add` has taken off the output buffer. -/
structure ClientRun (Req R D Msg : Type) where
  conn : Connection
  state : ClientState R D Msg
  point : ClientPoint
  received : List UInt8
  handled : List Header
  calls : List (Int64 × MethodCall Req R D)
  sent : List UInt8

inductive ClientOp (Req R D : Type) where
  | read (bs : List UInt8)
  | resume (memory : Nat → UInt8)
  | call (junk : Nat → UInt8) (call : MethodCall Req R D)
  | sendAdd (n : Nat)
  | close

def ClientPoint.turn : ClientPoint → ClientPoint → List Header
  | .response h _, .headerLen => [h]
  | _, _ => []

section

variable {Req R D Msg : Type}

/-- `recv_fn`, and between its steps the tasks of `CallMethod`, the credit of bytes that were
written to the socket, and the end of the connection. A task is one step: it runs on the thread
that also writes to the socket. -/
def clientMachine (ch : ClientChannel Req R Msg) :
    Machine (ClientRun Req R D Msg) (ClientOp Req R D) where
  start := ⟨Connection.init, ch.endpoint.app, .headerLen, [], [], [], []⟩
  step s
    | .read bs =>
      if ClientChannel.waits s.conn s.point ∧ (bs.length : Int) ≤ s.conn.readBuf.getBuffer.size then
        some { s with
          conn := { s.conn with readBuf := s.conn.readBuf.receive bs }
          received := s.received ++ bs }
      else none
    | .resume memory =>
      if ClientChannel.waits s.conn s.point then none
      else
        (ch.recvStep memory s.state s.conn s.point).map fun (st, c, p) =>
          { s with state := st, conn := c, point := p, handled := s.handled ++ s.point.turn p }
    | .call junk call =>
      (ch.sendRequest junk call s.state s.conn).map fun (st, c) =>
        { s with state := st, conn := c, calls := s.calls ++ [(s.state.requestId, call)] }
    | .sendAdd n =>
      if n ≤ s.conn.writeBytes then
        (s.conn.writeBuf.sendAdd n).map fun b =>
          { s with
            conn := { s.conn with writeBuf := b }
            sent := s.sent ++ s.conn.writeBuf.pending.take n }
      else none
    | .close => some { s with conn := s.conn.close }

def ClientChannel.requestBytes (ch : ClientChannel Req R Msg) (entry : Int64 × MethodCall Req R D) :
    List UInt8 :=
  message (ch.serializeHeader (reqHeader entry.1 entry.2)) ++
    message (ch.serializeRequest entry.2.request)

theorem ClientChannel.sendRequest_spec (ch : ClientChannel Req R Msg) {c : Connection}
    (inv : c.writeBuf.Inv) (junk : Nat → UInt8) (call : MethodCall Req R D)
    (st : ClientState R D Msg) :
    ∃ b, ch.sendRequest junk call st c =
      some (st.enter call.session, { c with writeBuf := b }) ∧ b.Inv ∧
      b.pending = c.writeBuf.pending ++ ch.requestBytes (st.requestId, call) := by
  obtain ⟨b, hb, hi, hp⟩ := Connection.appendMessage_spec inv junk
    (ch.serializeHeader (reqHeader st.requestId call))
  obtain ⟨d, hd, hdi, hdp⟩ := Connection.appendMessage_spec (c := { c with writeBuf := b }) hi junk
    (ch.serializeRequest call.request)
  refine ⟨d, by simp [sendRequest, hb, hd, ClientState.enter], hdi, ?_⟩
  rw [hdp, hp, List.append_assoc]
  rfl

/-- What a step of the channel does to its table and to its output. -/
inductive ClientMove (ch : ClientChannel Req R Msg) (s : ClientRun Req R D Msg) :
    ClientOp Req R D → ClientRun Req R D Msg → Prop
  | read {bs : List UInt8} : ClientMove ch s (.read bs)
      { s with
        conn := { s.conn with readBuf := s.conn.readBuf.receive bs }, received := s.received ++ bs }
  | resume {memory : Nat → UInt8} {c : Connection} {p : ClientPoint} {handled : List Header}
      (output : c.writeBuf = s.conn.writeBuf) :
      ClientMove ch s (.resume memory) { s with conn := c, point := p, handled := handled }
  | answer {memory : Nat → UInt8} {st : ClientState R D Msg} {c : Connection} {p : ClientPoint}
      {handled : List Header} (goes : ClientChannel.waits s.conn s.point = false)
      (output : c.writeBuf = s.conn.writeBuf) (answers : ch.Answers s.state s.conn s.point st) :
      ClientMove ch s (.resume memory) { s with
        state := st, conn := c, point := p, handled := handled }
  | call {junk : Nat → UInt8} {call : MethodCall Req R D} {b : OutputBuffer} (inv : b.Inv)
      (pending : b.pending = s.conn.writeBuf.pending ++ ch.requestBytes (s.state.requestId, call)) :
      ClientMove ch s (.call junk call)
        { s with
          state := s.state.enter call.session, conn := { s.conn with writeBuf := b }
          calls := s.calls ++ [(s.state.requestId, call)] }
  | sendAdd {n : Nat} {b : OutputBuffer} (inv : b.Inv)
      (pending : b.pending = s.conn.writeBuf.pending.drop n) :
      ClientMove ch s (.sendAdd n)
        { s with
          conn := { s.conn with writeBuf := b }, sent := s.sent ++ s.conn.writeBuf.pending.take n }
  | close : ClientMove ch s .close { s with conn := s.conn.close }

theorem client_move {ch : ClientChannel Req R Msg} {s t : ClientRun Req R D Msg}
    {op : ClientOp Req R D} (inv : s.conn.writeBuf.Inv)
    (hs : (clientMachine ch).step s op = some t) : ClientMove ch s op t := by
  cases op with
  | read bs =>
    simp only [clientMachine] at hs
    split at hs
    · cases hs
      exact .read
    · cases hs
  | resume memory =>
    simp only [clientMachine] at hs
    split at hs
    · cases hs
    · rename_i goes
      obtain ⟨⟨st, c, p⟩, hr, rfl⟩ := Option.map_eq_some_iff.mp hs
      obtain ⟨output, same | answers⟩ := ClientChannel.recvStep_effect hr
      · cases same
        exact .resume output
      · exact .answer (Bool.eq_false_iff.mpr goes) output answers
  | call junk call =>
    obtain ⟨b, hb, hi, hp⟩ := ch.sendRequest_spec inv junk call s.state
    simp only [clientMachine, hb, Option.map_some, Option.some.injEq] at hs
    subst hs
    exact .call hi hp
  | sendAdd n =>
    simp only [clientMachine] at hs
    split at hs
    · rename_i bound
      obtain ⟨b, hb, hi, hp⟩ := OutputBuffer.sendAdd_spec inv (n := n) (by exact_mod_cast bound)
      rw [hb] at hs
      cases hs
      exact .sendAdd hi hp
    · cases hs
  | close =>
    cases hs
    exact .close

/-- What is known of the calls made so far: the ids count up, the output is that of the calls,
and each session was entered and accounted for once at most. -/
structure ClientRun.Kept (ch : ClientChannel Req R Msg) (s : ClientRun Req R D Msg) : Prop where
  writeInv : s.conn.writeBuf.Inv
  ids : s.calls.map Prod.fst = (List.range s.calls.length).map Int64.ofNat
  nextId : s.state.requestId = Int64.ofNat s.calls.length
  made : s.state.made = s.calls.map fun c => (c.1, c.2.session)
  output : s.sent ++ s.conn.writeBuf.pending = s.calls.flatMap ch.requestBytes
  accounts : ∀ i, (s.state.account i).Sublist (under i s.state.made)

theorem ClientState.account_answer {ch : ClientChannel Req R Msg} {st st' : ClientState R D Msg}
    {c : Connection} {p : ClientPoint} (h : ch.Answers st c p st') (i : Int64) :
    (st'.account i).Sublist (st.account i) ∧ st'.made = st.made ∧ st'.requestId = st.requestId := by
  obtain ⟨h, n, session, bytes, d, _, _, found, _, rfl⟩ := h
  refine ⟨?_, rfl, rfl⟩
  cases ch.parseResponse session.response bytes with
  | none => exact st.account_drop found i
  | some message => exact (st.account_settle found message i) ▸ .refl _

theorem ClientState.account_enter_sublist {st : ClientState R D Msg} (session : Session R D)
    {i : Int64} (h : (st.account i).Sublist (under i st.made)) :
    ((st.enter session).account i).Sublist (under i (st.enter session).made) := by
  have entered : (st.enter session).made = st.made ++ [(st.requestId, session)] := rfl
  rw [entered, under_append]
  by_cases same : st.requestId = i
  · subst same
    rw [st.account_enter_self, under_self]
    exact ((List.sublist_append_left _ _).trans h).append (.refl _)
  · rw [st.account_enter_other session same, under_other same, List.append_nil]
    exact h

theorem kept_step {ch : ClientChannel Req R Msg} {s t : ClientRun Req R D Msg}
    {op : ClientOp Req R D} (h : s.Kept ch) (hs : (clientMachine ch).step s op = some t) :
    t.Kept ch := by
  cases client_move h.writeInv hs with
  | read => exact ⟨h.writeInv, h.ids, h.nextId, h.made, h.output, h.accounts⟩
  | resume output =>
    exact ⟨output ▸ h.writeInv, h.ids, h.nextId, h.made, output ▸ h.output, h.accounts⟩
  | answer goes output answers =>
    obtain ⟨_, made, requestId⟩ := ClientState.account_answer answers 0
    refine ⟨output ▸ h.writeInv, h.ids, requestId ▸ h.nextId, made ▸ h.made, output ▸ h.output, ?_⟩
    intro i
    simp only [made]
    exact (ClientState.account_answer answers i).1.trans (h.accounts i)
  | @call junk call b inv pending =>
    refine ⟨inv, ?_, ?_, ?_, ?_, fun i => ClientState.account_enter_sublist _ (h.accounts i)⟩
    · simp [List.range_succ, h.ids, h.nextId]
    · simp [ClientState.enter, h.nextId, Int64.ofNat_add]
    · simp [ClientState.enter, h.made]
    · simp only [pending]
      rw [← List.append_assoc, h.output, List.flatMap_append]
      simp
  | sendAdd inv pending =>
    refine ⟨inv, h.ids, h.nextId, h.made, ?_, h.accounts⟩
    simp only [pending]
    rw [List.append_assoc, List.take_append_drop]
    exact h.output
  | close => exact ⟨h.writeInv, h.ids, h.nextId, h.made, h.output, h.accounts⟩

theorem kept_start (ch : ClientChannel Req R Msg) :
    ((clientMachine ch).start : ClientRun Req R D Msg).Kept ch :=
  ⟨OutputBuffer.init_inv, rfl, rfl, rfl, rfl, fun _ => .refl _⟩

theorem kept_reach {ch : ClientChannel Req R Msg} {s : ClientRun Req R D Msg}
    (h : (clientMachine ch).Reach s) : s.Kept ch :=
  h.invariant (kept_start ch) (fun _ _ _ hk hs => kept_step hk hs)

theorem ofNat_inj_of_lt {a b : Nat} (ha : a < 2 ^ 63) (hb : b < 2 ^ 63)
    (same : Int64.ofNat a = Int64.ofNat b) : a = b := by
  have ints := congrArg Int64.toInt same
  rw [Int64.toInt_ofNat_of_lt ha, Int64.toInt_ofNat_of_lt hb] at ints
  exact_mod_cast ints

theorem ClientRun.Kept.ids_nodup {ch : ClientChannel Req R Msg} {s : ClientRun Req R D Msg}
    (h : s.Kept ch) (few : s.calls.length < 2 ^ 63) : (s.calls.map Prod.fst).Nodup := by
  rw [h.ids]
  apply List.Nodup.map_on
  · intro a ha b hb same
    have := List.mem_range.mp ha
    have := List.mem_range.mp hb
    exact ofNat_inj_of_lt (by omega) (by omega) same
  · exact List.nodup_range

/-- For as long as the counter does not overflow, each call has an id of its own. In every run the
output is that of the calls entered, in order; the sessions ended under an id and the one still in
the table are among those entered under it, each at most once; a call enters its session before
any of its bytes is sent; and a step of `recv_fn` changes the session of the frame before it at
most, ending it with what the payload of that frame was parsed to. -/
theorem client_responses_match (ch : ClientChannel Req R Msg) (s : ClientRun Req R D Msg)
    (h : (clientMachine ch).Reach s) :
    (s.calls.length < 2 ^ 63 → (s.calls.map Prod.fst).Nodup) ∧
    s.state.made = s.calls.map (fun c => (c.1, c.2.session)) ∧
    s.sent ++ s.conn.writeBuf.pending = s.calls.flatMap ch.requestBytes ∧
    (∀ i, ((under i s.state.endings).map Ending.session ++ (s.state.id2session i).toList).Sublist
      (under i s.state.made)) ∧
    (∀ junk call t, (clientMachine ch).step s (.call junk call) = some t →
      t.state.id2session s.state.requestId = some call.session ∧
      t.calls = s.calls ++ [(s.state.requestId, call)] ∧ t.sent = s.sent) ∧
    ∀ memory t, (clientMachine ch).step s (.resume memory) = some t → t.state = s.state ∨
      ∃ h n session bytes d, s.point = .response h n ∧
      s.state.id2session h.requestId = some session ∧
        s.conn.pull n = some (bytes, d) ∧
        (∀ j, j ≠ h.requestId → t.state.id2session j = s.state.id2session j) ∧
        t.state.endings = s.state.endings ++
          ((ch.parseResponse session.response bytes).map
            fun m => (h.requestId, session.finish m)).toList := by
  have kept := kept_reach h
  refine ⟨kept.ids_nodup, kept.made, kept.output, kept.accounts, ?_, ?_⟩
  · intro junk call t hs
    cases client_move kept.writeInv hs with
    | call inv pending => exact ⟨Function.update_self .., rfl, rfl⟩
  · intro memory t hs
    cases client_move kept.writeInv hs with
    | resume output => exact Or.inl rfl
    | answer goes output answers =>
      obtain ⟨h, n, session, bytes, d, site, _, found, pulled, rfl⟩ := answers
      exact Or.inr ⟨h, n, session, bytes, d, site, found, pulled,
        fun j other => Function.update_of_ne other .., rfl⟩

/- A payload that is there in full for a session parses, and a call does not take an id in use. -/
def CompletesCalls (ch : ClientChannel Req R Msg) (s : ClientRun Req R D Msg) :
    ClientOp Req R D → Prop
  | .resume _ => ∀ h n session bytes d, s.point = .response h n → n ≤ s.conn.readBytes →
      s.state.id2session h.requestId = some session → s.conn.pull n = some (bytes, d) →
      (ch.parseResponse session.response bytes).isSome
  | .call _ _ => s.state.id2session s.state.requestId = none
  | _ => True

theorem completes_step {ch : ClientChannel Req R Msg} {s t : ClientRun Req R D Msg}
    {op : ClientOp Req R D} (kept : s.Kept ch) (h : ∀ i, under i s.state.made = s.state.account i)
    (ok : CompletesCalls ch s op) (hs : (clientMachine ch).step s op = some t) (i : Int64) :
    under i t.state.made = t.state.account i := by
  cases client_move kept.writeInv hs with
  | read | resume | sendAdd | close => exact h i
  | answer goes output answers =>
    obtain ⟨h', n, session, bytes, d, site, uncut, found, pulled, rfl⟩ := answers
    have enough : n ≤ s.conn.readBytes := ClientChannel.enough_of_goes (site ▸ goes) uncut
    obtain ⟨message, parses⟩ :=
      Option.isSome_iff_exists.mp (ok h' n session bytes d site enough found pulled)
    rw [parses, ClientState.account_settle found]
    exact h i
  | @call junk call b inv pending =>
    have entered : (s.state.enter call.session).made =
        s.state.made ++ [(s.state.requestId, call.session)] := rfl
    rw [entered, under_append, h i]
    by_cases same : s.state.requestId = i
    · subst same
      have free : s.state.id2session s.state.requestId = none := ok
      rw [ClientState.account_enter_self, under_self, ClientState.account, free]
      simp
    · rw [ClientState.account_enter_other _ _ same, under_other same, List.append_nil]

/-- In every run in which each payload that `recv_fn` parses for a session does parse and no call
takes an id that is still in use, the sessions entered under an id are those ended under it, each
once and in order, and then the one in the table. A payload that does not parse takes one off that
is never ended. -/
theorem client_calls_complete (ch : ClientChannel Req R Msg) (s : ClientRun Req R D Msg)
    (h : (clientMachine ch).ReachWith (CompletesCalls ch) s) :
    (∀ i, under i s.state.made =
      (under i s.state.endings).map Ending.session ++ (s.state.id2session i).toList) ∧
    ∀ memory t h n session bytes d, (clientMachine ch).step s (.resume memory) = some t →
      s.point = .response h n → n ≤ s.conn.readBytes →
      s.state.id2session h.requestId = some session →
      s.conn.pull n = some (bytes, d) → ch.parseResponse session.response bytes = none →
      t.state.id2session h.requestId = none ∧
      under h.requestId t.state.made =
        (under h.requestId t.state.endings).map Ending.session ++ [session] := by
  have both : s.Kept ch ∧ ∀ i, under i s.state.made = s.state.account i := by
    refine h.invariant (I := fun s => s.Kept ch ∧ ∀ i, under i s.state.made = s.state.account i)
      ⟨kept_start ch, fun _ => rfl⟩ ?_
    intro s op t hi ok hs
    exact ⟨kept_step hi.1 hs, completes_step hi.1 hi.2 ok hs⟩
  refine ⟨both.2, ?_⟩
  intro memory t h n session bytes d hs site enough found pulled fails
  have short : ¬ s.conn.readBytes < n := Nat.not_lt.mpr enough
  have all := both.2 h.requestId
  rw [ClientState.account, found] at all
  simp only [clientMachine, site, ClientChannel.waits, short, decide_false, Bool.false_and,
    Bool.false_eq_true, if_false, ClientChannel.recvStep, and_false,
    ClientChannel.handleResponse, found, pulled, fails, Option.map_some, Option.some.injEq] at hs
  subst hs
  exact ⟨Function.update_self .., all⟩

end

/- A header is one byte, the id, and so is a response. -/
def byteClient : ClientChannel UInt8 Unit UInt8 where
  parseHeader
    | [id] => some ⟨MAGIC_NUM, VERSION, .response, Int64.ofNat id.toNat, none, none⟩
    | _ => none
  serializeHeader h := [UInt8.ofNat h.requestId.toNatClampNeg]
  serializeRequest byte := [byte]
  parseResponse
    | _, [byte] => some byte
    | _, _ => none

def byteCall (byte : UInt8) : MethodCall UInt8 Unit Unit := ⟨"Byte", "byte", byte, ⟨(), some ()⟩⟩

/- Two calls, the second of which is answered first. -/
theorem client_responses_match_out_of_order :
    ∃ s, (clientMachine byteClient).run (clientMachine byteClient).start
        ([.call (fun _ => 0) (byteCall 5), .call (fun _ => 0) (byteCall 6), .sendAdd 12,
          .read [1, 0, 0, 0, 1, 1, 0, 0, 0, 9, 1, 0, 0, 0, 0, 1, 0, 0, 0, 8]] ++
          List.replicate 8 (.resume fun _ => 0)) = some s ∧
      s.state.endings = [(1, .run () () 9), (0, .run () () 8)] ∧ (s.calls.map Prod.fst).Nodup := by
  obtain ⟨s, hs, endings, few⟩ : ∃ s,
      (clientMachine byteClient).run (clientMachine byteClient).start
      ([.call (fun _ => 0) (byteCall 5), .call (fun _ => 0) (byteCall 6), .sendAdd 12,
        .read [1, 0, 0, 0, 1, 1, 0, 0, 0, 9, 1, 0, 0, 0, 0, 1, 0, 0, 0, 8]] ++
        List.replicate 8 (.resume fun _ => 0)) = some s ∧
      s.state.endings = [(1, .run () () 9), (0, .run () () 8)] ∧ s.calls.length < 2 ^ 63 :=
    ⟨_, rfl, rfl, by decide⟩
  exact ⟨s, hs, endings, (client_responses_match byteClient s (Machine.reach_run .start hs)).1 few⟩

theorem reach_calls (n : Nat) :
    ∃ s : ClientRun UInt8 Unit Unit UInt8, (clientMachine byteClient).Reach s ∧ s.calls.length = n ∧
      s.calls.map Prod.fst = (List.range n).map Int64.ofNat := by
  induction n with
  | zero => exact ⟨_, .start, rfl, rfl⟩
  | succ n ih =>
    obtain ⟨s, hs, len, _⟩ := ih
    have kept := kept_reach hs
    obtain ⟨b, hb, _⟩ := byteClient.sendRequest_spec kept.writeInv (fun _ => 0) (byteCall 0) s.state
    obtain ⟨t, ht, calls⟩ : ∃ t,
        (clientMachine byteClient).step s (.call (fun _ => 0) (byteCall 0)) = some t ∧
        t.calls = s.calls ++ [(s.state.requestId, byteCall 0)] :=
      ⟨_, by simp only [clientMachine, hb, Option.map_some]; rfl, rfl⟩
    have long : t.calls.length = n + 1 := by simp [calls, len]
    exact ⟨t, hs.step ht, long, long ▸ (kept_reach (hs.step ht)).ids⟩

/-- The counter has 64 bits: after as many calls the first id is given out again. -/
theorem client_ids_repeat :
    ∃ s : ClientRun UInt8 Unit Unit UInt8, (clientMachine byteClient).Reach s ∧
      s.calls.length = 2 ^ 64 + 1 ∧ ¬ (s.calls.map Prod.fst).Nodup := by
  obtain ⟨s, hs, len, ids⟩ := reach_calls (2 ^ 64 + 1)
  refine ⟨s, hs, len, ?_⟩
  rw [ids]
  intro nodup
  have first : 0 ∈ List.range (2 ^ 64 + 1) := List.mem_range.mpr (by omega)
  have last : 2 ^ 64 ∈ List.range (2 ^ 64 + 1) := List.mem_range.mpr (by omega)
  have same : Int64.ofNat 0 = Int64.ofNat (2 ^ 64) := by decide
  exact absurd (List.inj_on_of_nodup_map nodup first last same) (by omega)

theorem client_calls_complete_at_answer :
    ∃ s, (clientMachine byteClient).run (clientMachine byteClient).start
        ([.call (fun _ => 0) (byteCall 5), .read [1, 0, 0, 0, 0, 1, 0, 0, 0, 9]] ++
          List.replicate 4 (.resume fun _ => 0)) = some s ∧
      s.state.id2session 0 = none ∧
      under 0 s.state.made = (under 0 s.state.endings).map Ending.session := by
  obtain ⟨s, hs, gone⟩ : ∃ s, (clientMachine byteClient).run (clientMachine byteClient).start
      ([.call (fun _ => 0) (byteCall 5), .read [1, 0, 0, 0, 0, 1, 0, 0, 0, 9]] ++
        List.replicate 4 (.resume fun _ => 0)) = some s ∧ s.state.id2session 0 = none :=
        ⟨_, rfl, rfl⟩
  have along : (clientMachine byteClient).Along (CompletesCalls byteClient)
      (clientMachine byteClient).start
      ([.call (fun _ => 0) (byteCall 5), .read [1, 0, 0, 0, 0, 1, 0, 0, 0, 9]] ++
        List.replicate 4 (.resume fun _ => 0)) := by
    refine ⟨rfl, fun _ h₁ => ⟨trivial, fun _ h₂ => ?_⟩⟩
    cases h₁
    cases h₂
    refine ⟨fun _ _ _ _ _ site => (by cases site), fun _ h₃ => ?_⟩
    cases h₃
    refine ⟨fun _ _ _ _ _ site => (by cases site), fun _ h₄ => ?_⟩
    cases h₄
    refine ⟨fun _ _ _ _ _ site => (by cases site), fun _ h₅ => ?_⟩
    cases h₅
    refine ⟨fun _ _ _ _ _ site _ found pulled => ?_, fun _ _ => trivial⟩
    cases site
    cases found
    cases pulled
    rfl
  have complete := (client_calls_complete byteClient s (Machine.reachWith_run .start along hs)).1 0
  rw [gone, Option.toList_none, List.append_nil] at complete
  exact ⟨s, hs, gone, complete⟩

/- An answer that does not parse: the session is gone, and nothing has been done to end it. -/
theorem client_call_dropped :
    ∃ s, (clientMachine byteClient).run (clientMachine byteClient).start
        ([.call (fun _ => 0) (byteCall 5), .read [1, 0, 0, 0, 0, 2, 0, 0, 0, 9, 9]] ++
          List.replicate 4 (.resume fun _ => 0)) = some s ∧
      s.state.made = [(0, ⟨(), some ()⟩)] ∧ s.state.id2session 0 = none ∧ s.state.endings = [] :=
  ⟨_, rfl, rfl, rfl, rfl⟩

end Xuanqiong
