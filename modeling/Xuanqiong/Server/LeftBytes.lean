import Xuanqiong.Net.EdgeRead
import Xuanqiong.Server.Pipeline

/-! What `recv_fn` makes of the bytes it has when no more will come. Three of its four loops around
`async_read` ask whether the connection is closed; the one for the request does not. So the bytes
say whether it leaves its loop, or comes to a request: one that is there in full it answers, and for
the rest of one that is cut off it waits. -/
namespace Xuanqiong

section

variable {M Req Resp : Type} {srv : RpcServer M Req Resp}

namespace RpcServer

/- The bytes of a request that is refused. Of those before it, too few will do as well. -/
def LeavesInRequest (srv : RpcServer M Req Resp) (m : M) (n : Nat) (bs : List UInt8) : Prop :=
  n ≤ bs.length ∧ srv.parseRequest m (bs.take n) = none

def LeavesInRequestLen (srv : RpcServer M Req Resp) (h : Header) (bs : List UInt8) : Prop :=
  bs.length < 4 ∨
    ∀ m, srv.lookup h = some m → srv.LeavesInRequest m (fromLe (bs.take 4)) (bs.drop 4)

def LeavesInHeader (srv : RpcServer M Req Resp) (n : Nat) (bs : List UInt8) : Prop :=
  bs.length < n ∨ ∀ h, srv.parseHeader (bs.take n) = some h →
    h.magic = MAGIC_NUM → h.version = VERSION → srv.LeavesInRequestLen h (bs.drop n)

/-- The bytes with which `recv_fn` leaves its loop when no more will come: from each point on, no
request is there in full that parses, and none is cut off in its payload. -/
def LeavesWith (srv : RpcServer M Req Resp) (bs : List UInt8) : RecvPoint M → Prop
  | .headerLen => bs.length < 4 ∨ srv.LeavesInHeader (fromLe (bs.take 4)) (bs.drop 4)
  | .header n => srv.LeavesInHeader n bs
  | .requestLen h => srv.LeavesInRequestLen h bs
  | .request _ m n => srv.LeavesInRequest m n bs
  | .reply => False
  | .done => True

end RpcServer

/- The length prefixes that are read among these bytes, which start at offset `o` of the stream,
straddle no end of a block. -/
def PrefixesWhole (o : Nat) (bs : List UInt8) : RecvPoint M → Prop
  | .headerLen => 4 ≤ bs.length → Whole o ∧
      (4 + fromLe (bs.take 4) + 4 ≤ bs.length → Whole (o + 4 + fromLe (bs.take 4)))
  | .header n => n + 4 ≤ bs.length → Whole (o + n)
  | .requestLen _ => 4 ≤ bs.length → Whole o
  | .request _ _ _ | .reply | .done => True

/-- One step on sound input: it takes bytes off the front, with less to do after it, and those that
are left say of the next point what all of them said of this one. -/
structure RpcServer.Turned (srv : RpcServer M Req Resp) (received : List UInt8) (c : Connection)
    (p : RecvPoint M) (d : Connection) (q : RecvPoint M) : Prop where
  readInv : d.readBuf.Inv received
  read : d.readBytes ≤ c.readBytes
  less : remaining d q < remaining c p
  whole : PrefixesWhole c.readBuf.consumedBytes c.readBuf.unread p →
    PrefixesWhole d.readBuf.consumedBytes d.readBuf.unread q
  leaves : PrefixesWhole c.readBuf.consumedBytes c.readBuf.unread p →
    (srv.LeavesWith d.readBuf.unread q ↔ srv.LeavesWith c.readBuf.unread p)

theorem RecvPoint.rank_pos {p : RecvPoint M} (running : p ≠ .done) : 0 < p.rank := by
  cases p <;> first | exact absurd rfl running | simp [RecvPoint.rank]

section

variable {received : List UInt8} {c d : Connection} {b : InputBuffer} {p q : RecvPoint M}

theorem RpcServer.Turned.ends (inv : b.Inv received) (read : b.readBytes ≤ c.readBytes)
    (running : p ≠ .done)
    (leaves : PrefixesWhole c.readBuf.consumedBytes c.readBuf.unread p →
      srv.LeavesWith c.readBuf.unread p) :
    srv.Turned received c p ⟨b, c.writeBuf, true⟩ .done where
  readInv := inv
  read := read
  less := by
    have pos := RecvPoint.rank_pos running
    have zero : (RecvPoint.done : RecvPoint M).rank = 0 := rfl
    simp only [remaining, Connection.readBytes, InputBuffer.bytes] at read ⊢
    omega
  whole _ := trivial
  leaves whole := iff_of_true trivial (leaves whole)

theorem RpcServer.Turned.takes {k : Nat} (before : c.readBuf.Inv received) (inv : b.Inv received)
    (consumed : b.consumedBytes = c.readBuf.consumedBytes + k) (smaller : q.rank < p.rank + 4 * k)
    (whole : PrefixesWhole c.readBuf.consumedBytes c.readBuf.unread p →
      PrefixesWhole (c.readBuf.consumedBytes + k) (c.readBuf.unread.drop k) q)
    (leaves : PrefixesWhole c.readBuf.consumedBytes c.readBuf.unread p →
      (srv.LeavesWith (c.readBuf.unread.drop k) q ↔ srv.LeavesWith c.readBuf.unread p)) :
    srv.Turned received c p { c with readBuf := b } q := by
  have left := InputBuffer.unread_drop before inv consumed
  have read := readBytes_of_consumed before inv consumed
  refine ⟨inv, ?_, ?_, ?_, ?_⟩
  · exact Nat.le.intro read
  · simp only [remaining, Connection.readBytes, InputBuffer.bytes]
    omega
  · simp only [left, consumed]
    exact whole
  · simp only [left]
    exact leaves

theorem enough_to_go {k : Nat} (go : (decide (c.readBytes < k) && !c.closed) = false)
    (long : ¬ (c.closed = true ∧ c.readBytes < k)) : k ≤ c.readBytes := by
  cases closed : c.closed with
  | true => exact Nat.le_of_not_lt fun short => long ⟨closed, short⟩
  | false => simpa [closed] using go

variable {memory : Nat → UInt8} {response : Resp}

theorem headerLen_turns (inv : c.readBuf.Inv received)
    (go : RpcServer.waits c (.headerLen : RecvPoint M) = false) :
    ∃ d q, srv.recvStep memory response c .headerLen = some (d, q, []) ∧
      srv.Turned received c .headerLen d q := by
  have length : c.readBuf.unread.length = c.readBytes := inv.unread_length
  simp only [RpcServer.recvStep]
  by_cases short : c.closed ∧ c.readBytes < 4
  · rw [if_pos short]
    exact ⟨_, _, rfl, .ends inv (Nat.le_refl _) (by simp) fun _ => Or.inl (length ▸ short.2)⟩
  · have enough := enough_to_go go short
    obtain ⟨n, b, fetched, inv', consumed, _, value⟩ :=
      Connection.fetchUint32_front inv enough memory
    rw [if_neg short, fetched]
    refine ⟨_, _, rfl, .takes inv inv' consumed (by simp [RecvPoint.rank]) ?_ ?_⟩
    · intro whole long
      obtain ⟨first, second⟩ := whole (length ▸ enough)
      rw [value first] at long ⊢
      rw [List.length_drop] at long
      exact second (by omega)
    · intro whole
      rw [value (whole (length ▸ enough)).1]
      exact (or_iff_right (by omega)).symm

theorem header_turns {n : Nat} (inv : c.readBuf.Inv received) (small : c.readBytes < 2 ^ 31)
    (go : RpcServer.waits c (.header n : RecvPoint M) = false) :
    ∃ d q, srv.recvStep memory response c (.header n) = some (d, q, []) ∧
      srv.Turned received c (.header n) d q := by
  have length : c.readBuf.unread.length = c.readBytes := inv.unread_length
  simp only [RpcServer.recvStep]
  by_cases short : c.closed ∧ c.readBytes < n
  · rw [if_pos short]
    exact ⟨_, _, rfl, .ends inv (Nat.le_refl _) (by simp) fun _ => Or.inl (length ▸ short.2)⟩
  · have enough := enough_to_go go short
    obtain ⟨b, pulled, inv', consumed⟩ := Connection.pull_front inv enough (Or.inr small)
    have popped : b.popLimit.Inv received := inv'.set_limit _ (by decide)
    have read : b.readBytes ≤ c.readBytes := Nat.le.intro (readBytes_of_consumed inv inv' consumed)
    rw [if_neg short, pulled, Option.map_some]
    dsimp only
    cases parses : srv.parseHeader (c.readBuf.unread.take n) with
    | none =>
      refine ⟨_, _, rfl, .ends inv' read (by simp) fun _ => Or.inr fun h hh => ?_⟩
      cases parses.symm.trans hh
    | some h =>
      by_cases invalid : h.magic ≠ MAGIC_NUM ∨ h.version ≠ VERSION
      · simp only [checkHeader_invalid invalid]
        refine ⟨_, _, rfl, .ends popped read
          (by simp) fun _ => Or.inr fun h' hh magic version => ?_⟩
        cases Option.some.inj (parses.symm.trans hh)
        exact absurd invalid (by simp [magic, version])
      · obtain ⟨magic, version⟩ := not_or.mp invalid
        have magic := not_ne_iff.mp magic
        have version := not_ne_iff.mp version
        simp only [checkHeader_valid magic version]
        refine ⟨_, _, rfl, .takes inv popped consumed (Nat.lt_add_right _ Nat.one_lt_two) ?_ ?_⟩
        · intro whole long
          rw [List.length_drop] at long
          exact whole (by omega)
        · intro _
          constructor
          · intro leaves
            refine Or.inr fun h' hh _ _ => ?_
            cases Option.some.inj (parses.symm.trans hh)
            exact leaves
          · rintro (short | leaves)
            · omega
            · exact leaves h parses magic version

theorem requestLen_turns {h : Header} (inv : c.readBuf.Inv received)
    (go : RpcServer.waits c (.requestLen h : RecvPoint M) = false) :
    ∃ d q, srv.recvStep memory response c (.requestLen h) = some (d, q, []) ∧
      srv.Turned received c (.requestLen h) d q := by
  have length : c.readBuf.unread.length = c.readBytes := inv.unread_length
  simp only [RpcServer.recvStep]
  by_cases short : c.closed ∧ c.readBytes < 4
  · rw [if_pos short]
    exact ⟨_, _, rfl, .ends inv (Nat.le_refl _) (by simp) fun _ => Or.inl (length ▸ short.2)⟩
  · have enough := enough_to_go go short
    obtain ⟨n, b, fetched, inv', consumed, _, value⟩ :=
      Connection.fetchUint32_front inv enough memory
    rw [if_neg short, fetched, Option.map_some]
    dsimp only
    cases found : srv.lookup h with
    | none =>
      rw [findMethod_missing found]
      have read : b.readBytes ≤ c.readBytes :=
        Nat.le.intro (readBytes_of_consumed inv inv' consumed)
      refine ⟨_, _, rfl, .ends inv' read (by simp) fun _ => Or.inr fun m hm => ?_⟩
      cases found.symm.trans hm
    | some m =>
      rw [findMethod_registered found]
      refine ⟨_, _, rfl, .takes inv inv' consumed (by simp [RecvPoint.rank]) (fun _ => trivial) ?_⟩
      intro whole
      rw [value (whole (length ▸ enough))]
      constructor
      · intro leaves
        refine Or.inr fun m' hm => ?_
        cases Option.some.inj (found.symm.trans hm)
        exact leaves
      · rintro (short | leaves)
        · omega
        · exact leaves m found

theorem request_turns {h : Header} {m : M} {n : Nat} (inv : c.readBuf.Inv received)
    (small : c.readBytes < 2 ^ 31) (go : RpcServer.waits c (.request h m n) = false) :
    (srv.LeavesWith c.readBuf.unread (.request h m n) ∧ ∃ b, b.Inv received ∧
      b.readBytes ≤ c.readBytes ∧ ∀ memory response,
        srv.recvStep memory response c (.request h m n) =
          some (RpcServer.leave { c with readBuf := b })) ∨
    (¬ srv.LeavesWith c.readBuf.unread (.request h m n) ∧ ∃ b r, b.Inv received ∧
      b.readBytes ≤ c.readBytes ∧ ∀ memory response,
        srv.recvStep memory response c (.request h m n) =
          srv.sendResponse { c with readBuf := b } memory ⟨h, m, r, response⟩) := by
  have length : c.readBuf.unread.length = c.readBytes := inv.unread_length
  have enough : n ≤ c.readBytes := by simpa [RpcServer.waits] using go
  have long : ¬ (c.closed = true ∧ c.readBytes < n) := fun short => by omega
  obtain ⟨b, pulled, inv', consumed⟩ := Connection.pull_front inv enough (Or.inr small)
  have popped : b.popLimit.Inv received := inv'.set_limit _ (by decide)
  have read : b.readBytes ≤ c.readBytes := Nat.le.intro (readBytes_of_consumed inv inv' consumed)
  cases parses : srv.parseRequest m (c.readBuf.unread.take n) with
  | none =>
    refine Or.inl ⟨⟨by omega, parses⟩, b, inv', read, fun memory response => ?_⟩
    simp only [RpcServer.recvStep, if_neg long, pulled, Option.bind_some, parses]
  | some r =>
    refine Or.inr ⟨fun leaves => ?_, b.popLimit, r, popped, read, fun memory response => ?_⟩
    · cases parses.symm.trans leaves.2
    · simp only [RpcServer.recvStep, if_neg long, pulled, Option.bind_some, parses]
      rfl

theorem sendResponse_input {junk : Nat → UInt8} {call : Call M Req Resp}
    {calls : List (Call M Req Resp)} (run : srv.sendResponse c junk call = some (d, q, calls)) :
    q = .reply ∧ calls = [call] ∧ d.readBuf = c.readBuf := by
  obtain ⟨a, ha, run⟩ := Option.bind_eq_some_iff.mp run
  obtain ⟨r, hr, hd⟩ := Option.map_eq_some_iff.mp run
  cases hd
  exact ⟨rfl, rfl, (Connection.appendMessage_readBuf hr).trans
    (Connection.appendMessage_readBuf ha)⟩

/-- With fewer than 2³¹ bytes buffered, whatever the bytes are and whatever the output is. -/
theorem recvStep_turned {calls : List (Call M Req Resp)} (inv : c.readBuf.Inv received)
    (small : c.readBytes < 2 ^ 31) (go : RpcServer.waits c p = false) (silent : p ≠ .reply)
    (run : srv.recvStep memory response c p = some (d, q, calls)) :
    srv.Turned received c p d q := by
  cases p with
  | headerLen =>
    obtain ⟨_, _, same, turned⟩ := headerLen_turns inv go
    cases Option.some.inj (same.symm.trans run)
    exact turned
  | header n =>
    obtain ⟨_, _, same, turned⟩ := header_turns inv small go
    cases Option.some.inj (same.symm.trans run)
    exact turned
  | requestLen h =>
    obtain ⟨_, _, same, turned⟩ := requestLen_turns inv go
    cases Option.some.inj (same.symm.trans run)
    exact turned
  | request h m n =>
    rcases request_turns inv small
      go with ⟨leaves, b, inv', read, same⟩ | ⟨stays, b, r, inv', read, same⟩
    · cases Option.some.inj ((same memory response).symm.trans run)
      exact .ends inv' read (by simp) fun _ => leaves
    · obtain ⟨rfl, _, input⟩ := sendResponse_input ((same memory response).symm.trans run)
      have read : d.readBytes ≤ c.readBytes := by
        rw [Connection.readBytes, input]
        exact read
      refine ⟨input ▸ inv', read, ?_, fun _ => trivial, fun _ => iff_of_false id stays⟩
      simp only [remaining, RecvPoint.rank]
      omega
  | reply => exact absurd rfl silent
  | done => cases run

theorem recvStep_leaves (inv : c.readBuf.Inv received) (small : c.readBytes < 2 ^ 31)
    (go : RpcServer.waits c p = false) (running : p ≠ .done)
    (leaves : srv.LeavesWith c.readBuf.unread p) (memory : Nat → UInt8) (response : Resp) :
    ∃ d q, srv.recvStep memory response c p = some (d, q, []) := by
  cases p with
  | headerLen =>
    obtain ⟨d, q, run, _⟩ := headerLen_turns inv go
    exact ⟨d, q, run⟩
  | header n =>
    obtain ⟨d, q, run, _⟩ := header_turns inv small go
    exact ⟨d, q, run⟩
  | requestLen h =>
    obtain ⟨d, q, run, _⟩ := requestLen_turns inv go
    exact ⟨d, q, run⟩
  | request h m n =>
    rcases request_turns inv small go with ⟨_, b, _, _, run⟩ | ⟨stays, _⟩
    · exact ⟨_, _, run memory response⟩
    · exact absurd leaves stays
  | reply => exact leaves.elim
  | done => exact absurd rfl running

end

theorem waits_closed {c : Connection} {p : RecvPoint M} (closed : c.closed = true) :
    RpcServer.waits c p = true ↔ ∃ h m n, p = .request h m n ∧ c.readBytes < n := by
  cases p <;> simp [RpcServer.waits, closed]

def Connection.reopen (c : Connection) : Connection := { c with closed := false }

theorem Connection.reopen_readBytes (c : Connection) : c.reopen.readBytes = c.readBytes := rfl

theorem Connection.reopen_of_open {c : Connection} (opened : c.closed = false) : c.reopen = c := by
  rw [reopen, ← opened]

/- The bytes that a loop around `async_read` is for. -/
def RecvPoint.needs : RecvPoint M → Nat
  | .headerLen | .requestLen _ => 4
  | .header n | .request _ _ n => n
  | .reply | .done => 0

theorem waits_open {c : Connection} {p : RecvPoint M} (opened : c.closed = false) :
    RpcServer.waits c p = true ↔ c.readBytes < p.needs := by
  cases p <;> simp [RpcServer.waits, opened, RecvPoint.needs]

theorem waits_reopen {c : Connection} {p : RecvPoint M} :
    RpcServer.waits c.reopen p = true ↔ c.readBytes < p.needs := waits_open rfl

/- What a closed connection changes is that a step leaves where it would have waited. -/
theorem recvStep_cut_short {memory : Nat → UInt8} {response : Resp} {c : Connection}
    {p : RecvPoint M} (closed : c.closed = true) (short : RpcServer.waits c.reopen p = true) :
    srv.recvStep memory response c p = some (RpcServer.leave c) := by
  cases p with
  | headerLen | header | requestLen | request =>
    simp only [RpcServer.recvStep]
    rw [if_pos ⟨closed, waits_reopen.mp short⟩]
  | reply | done => simp [RpcServer.waits] at short

theorem fetchUint32_reopen (c : Connection) (memory : Nat → UInt8) :
    c.reopen.fetchUint32 memory = (c.fetchUint32 memory).map fun r => (r.1, r.2.reopen) := by
  simp only [Connection.fetchUint32, Option.map_map]
  rfl

theorem pull_reopen (c : Connection) (n : Nat) :
    c.reopen.pull n = (c.pull n).map fun r => (r.1, r.2.reopen) := by
  simp only [Connection.pull, Option.map_map]
  rfl

theorem appendMessage_reopen (c : Connection) (junk : Nat → UInt8) (message : List UInt8) :
    c.reopen.appendMessage junk message = (c.appendMessage junk message).map Connection.reopen := by
  simp only [Connection.appendMessage, Option.map_bind, Option.map_map, Function.comp_def]
  rfl

theorem sendResponse_reopen (c : Connection) (junk : Nat → UInt8) (call : Call M Req Resp) :
    srv.sendResponse c.reopen junk call =
      (srv.sendResponse c junk call).map (Prod.map Connection.reopen id) := by
  simp only [RpcServer.sendResponse, appendMessage_reopen, Option.bind_map, Option.map_bind,
    Option.map_map, Function.comp_def]
  rfl

theorem recvStep_reopen (srv : RpcServer M Req Resp) (memory : Nat → UInt8) (response : Resp)
    {c : Connection} {p : RecvPoint M} (go : RpcServer.waits c.reopen p = false) :
    (srv.recvStep memory response c p).map (Prod.map Connection.reopen id) =
      (srv.recvStep memory response c.reopen p).map (Prod.map Connection.reopen id) := by
  have enough : ¬ c.readBytes < p.needs := fun short => by simp [waits_reopen.mpr short] at go
  cases p with
  | headerLen =>
    simp only [RecvPoint.needs] at enough
    simp only [RpcServer.recvStep, Connection.reopen_readBytes, enough, and_false, if_false,
      fetchUint32_reopen, Option.map_map]
    congr 1
    funext r
    obtain ⟨v, d⟩ := r
    cases v <;> rfl
  | header n =>
    simp only [RecvPoint.needs] at enough
    simp only [RpcServer.recvStep, Connection.reopen_readBytes, enough, and_false, if_false,
      pull_reopen, Option.map_map]
    congr 1
    funext r
    obtain ⟨bytes, d⟩ := r
    simp only [Function.comp_apply]
    cases srv.parseHeader bytes with
    | none => rfl
    | some h =>
      simp only [RpcServer.checkHeader]
      split
      · rfl
      · split <;> rfl
  | requestLen h =>
    simp only [RecvPoint.needs] at enough
    simp only [RpcServer.recvStep, Connection.reopen_readBytes, enough, and_false, if_false,
      fetchUint32_reopen, Option.map_map]
    congr 1
    funext r
    obtain ⟨v, d⟩ := r
    cases v with
    | none => rfl
    | some n =>
      simp only [Function.comp_apply, RpcServer.findMethod]
      cases srv.name2service (h.serviceName.getD "") with
      | none => rfl
      | some service =>
        dsimp only
        cases service (h.methodName.getD "") <;> rfl
  | request h m n =>
    simp only [RecvPoint.needs] at enough
    simp only [RpcServer.recvStep, Connection.reopen_readBytes, enough, and_false, if_false,
      pull_reopen, Option.map_bind, Option.bind_map]
    congr 1
    funext r
    obtain ⟨bytes, d⟩ := r
    simp only [Function.comp_apply]
    cases srv.parseRequest m bytes with
    | none => rfl
    | some r =>
      have moved : d.reopen.popLimit = d.popLimit.reopen := rfl
      simp only [moved, sendResponse_reopen, Option.map_map]
      rfl
  | reply => rfl
  | done => rfl

structure InputEnded (received : List UInt8) (c : Connection) (p : RecvPoint M) : Prop where
  closed : c.closed = true
  readInv : c.readBuf.Inv received
  small : c.readBytes < 2 ^ 31
  whole : PrefixesWhole c.readBuf.consumedBytes c.readBuf.unread p

theorem InputEnded.next {received : List UInt8} {c d : Connection} {p q : RecvPoint M}
    (h : InputEnded received c p) (go : RpcServer.waits c p = false) (silent : p ≠ .reply)
    {memory : Nat → UInt8} {response : Resp} {calls : List (Call M Req Resp)}
    (run : srv.recvStep memory response c p = some (d, q, calls)) :
    InputEnded received d q ∧
    (srv.LeavesWith d.readBuf.unread q ↔ srv.LeavesWith c.readBuf.unread p) ∧
      remaining d q < remaining c p := by
  have turned := recvStep_turned h.readInv h.small go silent run
  refine ⟨⟨?_, turned.readInv, ?_, turned.whole h.whole⟩, turned.leaves h.whole, turned.less⟩
  · rw [RpcServer.recvStep_closed run, h.closed, Bool.true_or]
  · exact Nat.lt_of_le_of_lt turned.read h.small

/-- The input of a closed connection, with `recv_fn` at a point of it and bytes with which it
leaves its loop. -/
structure RpcServer.Drains (srv : RpcServer M Req Resp) (received : List UInt8) (c : Connection)
    (p : RecvPoint M) : Prop extends InputEnded received c p where
  leaves : srv.LeavesWith c.readBuf.unread p

namespace RpcServer.Drains

variable {received : List UInt8} {c d : Connection} {p q : RecvPoint M}

theorem silent (h : srv.Drains received c p) : p ≠ .reply := by
  rintro rfl
  exact h.leaves

theorem goes (h : srv.Drains received c p) : RpcServer.waits c p = false := by
  refine Bool.eq_false_iff.mpr fun waits => ?_
  obtain ⟨hd, m, n, rfl, short⟩ := (waits_closed h.closed).mp waits
  have there := h.leaves.1
  rw [h.readInv.unread_length] at there
  exact absurd short (Nat.not_lt.mpr there)

theorem same (h : srv.Drains received c p) (closed : d.closed = true)
    (input : d.readBuf = c.readBuf) :
    srv.Drains received d p where
  closed := closed
  readInv := input ▸ h.readInv
  small := by
    rw [Connection.readBytes, input]
    exact h.small
  whole := input ▸ h.whole
  leaves := input ▸ h.leaves

theorem next (h : srv.Drains received c p) {memory : Nat → UInt8} {response : Resp}
    {calls : List (Call M Req Resp)} (run : srv.recvStep memory response c p = some (d, q, calls)) :
    srv.Drains received d q ∧ remaining d q < remaining c p := by
  obtain ⟨ended, leaves, less⟩ := h.toInputEnded.next h.goes h.silent run
  exact ⟨⟨ended, leaves.mpr h.leaves⟩, less⟩

end RpcServer.Drains

/- Fewer than 2³¹ bytes are buffered, with those of an `async_read` on its way. -/
def ConnRun.Bounded {σ P T : Type} (s : ConnRun σ P T) : Prop :=
  (s.ctl.settle s.conn).readBytes < 2 ^ 31

/-- The connection of a server with the bytes that have come in. -/
def receivingMachine (srv : RpcServer M Req Resp) :
    Machine (ConnRun (List (Call M Req Resp)) (RecvPoint M) Empty × List UInt8)
      (ConnOp ((Nat → UInt8) × Resp) Empty) :=
  (connMachine srv.endpoint).observed [] fun _ op _ received => received ++ op.input

variable {s t : ConnRun (List (Call M Req Resp)) (RecvPoint M) Empty}
  {op : ConnOp ((Nat → UInt8) × Resp) Empty} {received : List UInt8}

structure ConnRun.Buffers (srv : RpcServer M Req Resp)
    (s : ConnRun (List (Call M Req Resp)) (RecvPoint M) Empty) (received : List UInt8) : Prop where
  placed : s.Placed srv.endpoint
  roomy : s.Roomy
  readInv : (s.ctl.settle s.conn).readBuf.Inv received

theorem ConnRun.Buffers.same (h : s.Buffers srv received) (placed : t.Placed srv.endpoint)
    (roomy : t.Roomy) (input : (t.ctl.settle t.conn).readBuf = (s.ctl.settle s.conn).readBuf) :
    t.Buffers srv (received ++ []) where
  placed := placed
  roomy := roomy
  readInv := by
    rw [List.append_nil, input]
    exact h.readInv

theorem recvStep_readInv {c d : Connection} {p q : RecvPoint M} {memory : Nat → UInt8}
    {response : Resp} {calls : List (Call M Req Resp)} (inv : c.readBuf.Inv received)
    (small : c.readBytes < 2 ^ 31) (go : RpcServer.waits c p = false)
    (run : srv.recvStep memory response c p = some (d, q, calls)) : d.readBuf.Inv received := by
  by_cases silent : p = .reply
  · subst silent
    cases run
    exact inv
  · exact (recvStep_turned inv small go silent run).readInv

/-- Whatever becomes of the output, the input is what has come in. -/
theorem buffers_step (h : s.Buffers srv received) (bounded : op.isEvent = false → s.Bounded)
    (move : ConnMove srv.endpoint s op t) : t.Buffers srv (received ++ op.input) := by
  have placed := placed_step h.placed move
  have roomy := roomy_step srv.leavesRoom h.roomy move
  have readInv := h.readInv
  cases move with
  | @spawn request => exact request.elim
  | close owned => cases owned
  | startSend ctl queue run => exact h.same placed roomy (settle_readBuf _ (sendLoop_readBuf run))
  | startRecv ctl | readable ctl | writable ctl | resumeRead ctl =>
    refine h.same placed roomy ?_
    rw [ctl]
    rfl
  | @startCall _ request => exact request.elim
  | hangUp ctl =>
    refine h.same placed roomy ?_
    rw [ctl]
    rfl
  | resumeWrite site run =>
    refine h.same placed roomy ?_
    rw [(afterResume_cases site).1]
    exact settle_readBuf _ (resume_readBuf run)
  | read ctl waits run =>
    obtain ⟨ends, _, _, _, _, _, rfl, rfl, fits⟩ := Connection.readAll_cases h.roomy.room run
    rw [ctl] at readInv
    exact ⟨placed, roomy, (readInv.receive _ fits).1⟩
  | proceed ctl opened | deleted ctl closed | suspended ctl opened | received ctl opened =>
    refine h.same placed roomy ?_
    rw [ctl]
    rfl
  | finish ctl waits run | go ctl waits run =>
    have small := bounded rfl
    unfold ConnRun.Bounded at small
    rw [ctl] at readInv small
    obtain ⟨r, hr, hd⟩ := Option.map_eq_some_iff.mp run
    cases hd
    refine ⟨placed, roomy, ?_⟩
    simp only [ConnOp.input, List.append_nil]
    exact recvStep_readInv readInv small waits hr

theorem buffers_start (srv : RpcServer M Req Resp) :
    (connMachine srv.endpoint).start.Buffers srv [] :=
  ⟨placed_reach .start, roomy_reach srv.leavesRoom .start, InputBuffer.init_inv⟩

theorem server_step {p q : RecvPoint M} {memory : Nat → UInt8} {response : Resp} {d : Connection}
    {calls : List (Call M Req Resp)} (ctl : s.ctl = .recv p) (go : RpcServer.waits s.conn p = false)
    (silent : p ≠ .reply) (run : srv.recvStep memory response s.conn p = some (d, q, calls)) :
    (connMachine srv.endpoint).step s (.step (memory, response)) =
      some (s.goes srv.endpoint (s.app ++ calls, d, q)) := by
  have replies : srv.endpoint.replies p = none := by
    cases p with
    | reply => exact absurd rfl silent
    | headerLen | header | requestLen | request | done => rfl
  have waits : srv.endpoint.waits s.conn p = false := go
  have step : srv.endpoint.step (memory, response) s.app s.conn p =
      some (s.app ++ calls, d, q) := by
    simp only [RpcServer.endpoint, run, Option.map_some]
  simp [connMachine, ctl, waits, replies, step]

end

end Xuanqiong
