import Xuanqiong.Util.MpmcSolo

/-! A queue with a single user, against an unbounded FIFO queue. -/
namespace Xuanqiong

inductive QueueCall (T : Type) where
  | push (value : T)
  | pop

namespace QueueCall

variable {T : Type}

def op : QueueCall T → MpmcOp Unit T
  | .push v => .push () v
  | .pop => .pop ()

def isPush : QueueCall T → Bool
  | .push _ => true
  | .pop => false

def result (s s' : MpmcRun Unit T) : QueueCall T → List (Option T)
  | .push _ => []
  | .pop => [(s'.queue.returned.drop s.queue.returned.length).head?.bind Prod.snd]

end QueueCall

section

variable {T : Type}

/- An unbounded FIFO queue: the waiting values and the results of `pop`. -/
def fifoStep (state : List T × List (Option T)) : QueueCall T → List T × List (Option T)
  | .push v => (state.1 ++ [v], state.2)
  | .pop => (state.1.tail, state.2 ++ [state.1.head?])

def fifo (calls : List (QueueCall T)) : List T × List (Option T) := calls.foldl fifoStep ([], [])

inductive Served : List (QueueCall T) → List (Option T) → MpmcRun Unit T → Prop where
  | start : Served [] [] (mpmcMachine Unit T).start
  | call {calls results s r s'} (call : QueueCall T) (before : Served calls results s)
      (begins : (mpmcMachine Unit T).step s call.op = some r) (runs : Solo () r s')
      (returns : s'.threads () = .idle) : Served (calls ++ [call]) (results ++ call.result s s') s'

/-- A single user's queue between two calls. -/
structure Between (calls : List (QueueCall T)) (results : List (Option T)) (q : MPMCQueue T) :
    Prop where
  alone : q.Alone ((q.headIndex - 1) / CHUNK_SIZE)
  retired : q.retired = q.chain.take ((q.headIndex - 1) / CHUNK_SIZE)
  discarded : q.discarded = []
  used : ∀ c, c < q.fresh → c ∈ q.chain
  pushes : q.tailIndex = calls.countP QueueCall.isPush
  pops : q.headIndex = results.countP Option.isSome
  agrees : fifo calls = ((q.tailClaims.drop q.headIndex).map Prod.snd, results)

theorem between_init : Between [] [] (MPMCQueue.init : MPMCQueue T) where
  alone := by
    rw [show (MPMCQueue.init : MPMCQueue T).headIndex = 0 from rfl, Nat.zero_sub, Nat.zero_div]
    exact MPMCQueue.init_alone
  retired := by simp [MPMCQueue.init]
  discarded := rfl
  used := fun c hc => List.mem_singleton.mpr (Nat.lt_one_iff.mp hc)
  pushes := rfl
  pops := rfl
  agrees := rfl

theorem fifo_snoc (calls : List (QueueCall T)) (call : QueueCall T) :
    fifo (calls ++ [call]) = fifoStep (fifo calls) call := by
  simp [fifo]

variable {calls : List (QueueCall T)} {results : List (Option T)} {q : MPMCQueue T}

theorem Between.push (b : Between calls results q) (v : T) :
    Between (calls ++ [.push v]) results (q.pushed v) where
  alone := by
    rw [MPMCQueue.pushed_headIndex]
    exact (b.alone.push v).2
  retired := by
    rw [MPMCQueue.pushed_headIndex, (MPMCQueue.pushed_deleted q v).1, b.retired]
    have lt := (List.getElem?_eq_some_iff.mp b.alone.quiet.head).1
    rcases MPMCQueue.pushed_chain q v with ⟨chain, _⟩ | ⟨chain, _⟩
    · rw [chain]
    · rw [chain, List.take_append_of_le_length (Nat.le_of_lt lt)]
  discarded := (MPMCQueue.pushed_deleted q v).2.trans b.discarded
  used := by
    intro c hc
    rcases MPMCQueue.pushed_chain q v with ⟨chain, fresh⟩ | ⟨chain, fresh⟩
    · rw [chain]
      exact b.used c (fresh ▸ hc)
    · rw [chain]
      rw [fresh] at hc
      rcases Nat.lt_succ_iff_lt_or_eq.mp hc with lt | rfl
      · exact List.mem_append_left _ (b.used c lt)
      · exact List.mem_append_right _ List.mem_cons_self
  pushes := by
    rw [MPMCQueue.pushed_tailIndex, List.countP_append, b.pushes]
    rfl
  pops := (MPMCQueue.pushed_headIndex q v).trans b.pops
  agrees := by
    have le : q.headIndex ≤ q.tailClaims.length := by
      rw [b.alone.inv.claims_length]
      exact b.alone.inv.order
    rw [fifo_snoc, b.agrees, MPMCQueue.pushed_headIndex, MPMCQueue.pushed_tailClaims,
      List.drop_append_of_le_length le, List.map_append]
    rfl

theorem Between.pop_empty (b : Between calls results q) (empty : q.headIndex = q.tailIndex) :
    Between (calls ++ [.pop]) (results ++ [none])
      { q with empties := q.empties ++ [(q.headIndex, q.tailIndex)] } where
  alone := b.alone.finds_empty empty
  retired := b.retired
  discarded := b.discarded
  used := b.used
  pushes := by
    rw [List.countP_append, ← b.pushes]
    rfl
  pops := by
    rw [List.countP_append, ← b.pops]
    rfl
  agrees := by
    have none_left : q.tailClaims.drop q.headIndex = [] := by
      rw [List.drop_eq_nil_iff, b.alone.inv.claims_length, empty]
    rw [fifo_snoc, b.agrees, none_left]
    rfl

def MPMCQueue.onward (q : MPMCQueue T) (n : Nat) : MPMCQueue T :=
  { q with headChunk := n, retired := q.chain.take (q.headIndex / CHUNK_SIZE) }

theorem MPMCQueue.inside (q : MPMCQueue T) :
    q.headIndex < (q.headIndex / CHUNK_SIZE + 1) * CHUNK_SIZE := by
  rw [Nat.mul_comm]
  exact Nat.lt_mul_div_succ _ CHUNK_SIZE_pos

theorem Between.pop_reaches (b : Between calls results q) (left : q.headIndex < q.tailIndex)
    (threads : Unit → MpmcPoint T) :
    ∃ n, (q.onward n).Alone (q.headIndex / CHUNK_SIZE) ∧
      Solo () ⟨q, Function.update threads () .loadHeadChunk⟩
        ⟨(q.onward n).take, Function.update threads () .idle⟩ := by
  obtain ⟨alone, retired, -⟩ := b
  by_cases inside : q.headIndex < ((q.headIndex - 1) / CHUNK_SIZE + 1) * CHUNK_SIZE
  · have same : (q.headIndex - 1) / CHUNK_SIZE = q.headIndex / CHUNK_SIZE := by
      unfold CHUNK_SIZE at *
      omega
    rw [same] at alone retired
    have stays : q.onward q.headChunk = q := by rw [MPMCQueue.onward, ← retired]
    refine ⟨q.headChunk, ?_, ?_⟩
    · rw [stays]
      exact alone
    · rw [stays]
      exact solo_runOn (alone.takes left q.inside).1
  · have next : (q.headIndex - 1) / CHUNK_SIZE + 1 = q.headIndex / CHUNK_SIZE := by
      unfold CHUNK_SIZE at *
      omega
    obtain ⟨n, run, moved⟩ := alone.retires left (Nat.not_lt.mp inside)
    have deleted : q.retired ++ [q.headChunk] = q.chain.take (q.headIndex / CHUNK_SIZE) := by
      rw [retired, ← next, List.take_add_one, alone.quiet.head]
      rfl
    have onward : (q.onward n).Alone (q.headIndex / CHUNK_SIZE) := by
      rw [← next]
      exact ⟨{ moved.inv with
        }, ⟨moved.quiet.head, moved.quiet.linked, moved.quiet.refs, moved.quiet.ready,
          moved.quiet.counted⟩, moved.covers⟩
    refine ⟨n, onward, (solo_runOn run).trans (.trans (.one (delete_head_step _ _ _ _)) ?_)⟩
    have takes := (onward.takes left q.inside).1
    rw [MPMCQueue.onward, ← deleted] at takes
    rw [MPMCQueue.onward, ← deleted]
    exact solo_runOn takes

theorem Between.pop_some {n : Nat} (b : Between calls results q) (left : q.headIndex < q.tailIndex)
    (onward : (q.onward n).Alone (q.headIndex / CHUNK_SIZE)) :
    ∃ u, (q.onward n).take.returned = q.returned ++ [(q.headIndex, some u)] ∧
      Between (calls ++ [.pop]) (results ++ [some u]) (q.onward n).take := by
  obtain ⟨u, claimed, returned⟩ := onward.returned_take left q.inside
  have claimed : q.tailClaims[q.headIndex]? = some (q.headIndex, u) := claimed
  have first : q.tailClaims.drop q.headIndex =
      (q.headIndex, u) :: q.tailClaims.drop (q.headIndex + 1) := by
    obtain ⟨lt, get⟩ := List.getElem?_eq_some_iff.mp claimed
    rw [← get, List.drop_eq_getElem_cons lt]
  refine ⟨u, returned, (onward.takes left q.inside).2, rfl, b.discarded, b.used, ?_, ?_, ?_⟩
  · rw [List.countP_append, ← b.pushes]
    rfl
  · rw [List.countP_append, ← b.pops]
    rfl
  · rw [fifo_snoc, b.agrees, first]
    rfl

theorem between_call {s : MpmcRun Unit T} (idle : s.threads () = .idle)
    (b : Between calls results s.queue) (call : QueueCall T) :
    ∃ r s', (mpmcMachine Unit T).step s call.op = some r ∧ Solo () r s' ∧ s'.threads () = .idle ∧
      Between (calls ++ [call]) (results ++ call.result s s') s'.queue := by
  cases call with
  | push v =>
    obtain ⟨⟨n, run⟩, -⟩ := b.alone.push v
    refine ⟨⟨s.queue, Function.update s.threads () (.loadTailChunk v)⟩,
      ⟨s.queue.pushed v, Function.update s.threads () .idle⟩, ?_, solo_runOn run, rfl, ?_⟩
    · simp [mpmcMachine, QueueCall.op, idle]
    · rw [QueueCall.result, List.append_nil]
      exact b.push v
  | pop =>
    have begins : (mpmcMachine Unit T).step s (QueueCall.pop : QueueCall T).op =
        some ⟨s.queue, Function.update s.threads () .loadHeadChunk⟩ := by
      simp [mpmcMachine, QueueCall.op, idle]
    rcases Nat.eq_or_lt_of_le b.alone.inv.order with empty | left
    · refine ⟨_, ⟨_, Function.update s.threads () .idle⟩, begins,
        solo_runOn (MPMCQueue.pop_finds_empty s.queue empty), rfl, ?_⟩
      simpa [QueueCall.result] using b.pop_empty empty
    · obtain ⟨n, onward, runs⟩ := b.pop_reaches left s.threads
      obtain ⟨u, returned, after⟩ := b.pop_some left onward
      refine ⟨_, _, begins, runs, rfl, ?_⟩
      simpa [QueueCall.result, returned] using after

theorem served_between {s : MpmcRun Unit T} (h : Served calls results s) :
    s.threads () = .idle ∧ Between calls results s.queue := by
  induction h with
  | start => exact ⟨rfl, between_init⟩
  | call call _ begins runs returns ih =>
    obtain ⟨r, s', begins', runs', returns', after⟩ := between_call ih.1 ih.2 call
    cases begins.symm.trans begins'
    cases runs.unique runs' returns returns'
    exact ⟨returns, after⟩

theorem Served.next {s : MpmcRun Unit T} (h : Served calls results s) (call : QueueCall T) :
    ∃ r s', (mpmcMachine Unit T).step s call.op = some r ∧ Solo () r s' ∧
      Served (calls ++ [call]) (results ++ call.result s s') s' := by
  obtain ⟨idle, b⟩ := served_between h
  obtain ⟨r, s', begins, runs, returns, -⟩ := between_call idle b call
  exact ⟨r, s', begins, runs, .call call h begins runs returns⟩

theorem served_exists (calls : List (QueueCall T)) : ∃ results s, Served calls results s := by
  induction calls using List.reverseRecOn with
  | nil => exact ⟨[], _, .start⟩
  | append_singleton calls call ih =>
    obtain ⟨results, s, h⟩ := ih
    obtain ⟨_, s', _, _, h'⟩ := h.next call
    exact ⟨_, s', h'⟩

/- No `compare_exchange_weak` fails on its own. -/
def NoSpurious {ι : Type} : MpmcRun ι T → MpmcOp ι T → Prop
  | _, .failWeak _ => False
  | _, _ => True

theorem solo_returns {s : MpmcRun Unit T} (h : (mpmcMachine Unit T).ReachWith NoSpurious s) :
    ∃ calls results s', Solo () s s' ∧ Served calls results s' := by
  refine h.invariant (I := fun s => ∃ calls results s', Solo () s s' ∧ Served calls results s')
    ⟨[], [], _, ⟨0, rfl⟩, .start⟩ ?_
  rintro s op r ⟨calls, results, s', runs, served⟩ ok hs
  have from_call : ∀ call : QueueCall T, call.op = op → s.threads () = .idle →
      ∃ calls results s', Solo () r s' ∧ Served calls results s' := by
    rintro call rfl idle
    cases runs.of_idle idle
    obtain ⟨r', s'', begins, runs', served'⟩ := served.next call
    cases begins.symm.trans hs
    exact ⟨_, _, s'', runs', served'⟩
  cases op with
  | push t v =>
    refine from_call (.push v) rfl ?_
    simp only [mpmcMachine] at hs
    split at hs
    · assumption
    · cases hs
  | pop t =>
    refine from_call .pop rfl ?_
    simp only [mpmcMachine] at hs
    split at hs
    · assumption
    · cases hs
  | advance t =>
    rcases runs.cases with rfl | ⟨r', hr', runs'⟩
    · rw [idle_stops (served_between served).1] at hs
      cases hs
    · cases hr'.symm.trans hs
      exact ⟨calls, results, s', runs', served⟩
  | failWeak t => exact ok.elim

def MPMCQueue.Live (q : MPMCQueue T) (c : Nat) : Prop :=
    c < q.fresh ∧ c ∉ q.retired ∧ c ∉ q.discarded

theorem Between.live (b : Between calls results q) :
    (q.chain.drop ((q.headIndex - 1) / CHUNK_SIZE)).Nodup ∧
    (∀ c, c ∈ q.chain.drop ((q.headIndex - 1) / CHUNK_SIZE) ↔ q.Live c) ∧
    (q.chain.drop ((q.headIndex - 1) / CHUNK_SIZE)).map (fun c => (q.chunks c).beginIndex) =
      List.range' (CHUNK_SIZE * ((q.headIndex - 1) / CHUNK_SIZE))
        ((q.tailIndex - 1) / CHUNK_SIZE - (q.headIndex - 1) / CHUNK_SIZE + 1) CHUNK_SIZE := by
  have nodup := b.alone.inv.nodup
  have split := List.take_append_drop ((q.headIndex - 1) / CHUNK_SIZE) q.chain
  refine ⟨nodup.sublist (List.drop_sublist _ _), ?_, ?_⟩
  · intro c
    unfold MPMCQueue.Live
    rw [b.retired, b.discarded]
    constructor
    · intro hc
      have hmem := List.mem_of_mem_drop hc
      rw [← split] at nodup
      exact ⟨b.alone.inv.allocated c hmem,
        fun ht => (List.disjoint_of_nodup_append nodup) ht hc, by simp⟩
    · rintro ⟨lt, hnot, -⟩
      have hmem := b.used c lt
      rw [← split] at hmem
      exact (List.mem_append.mp hmem).resolve_left hnot
  · have le := Nat.div_le_div_right (c := CHUNK_SIZE) (Nat.sub_le_sub_right b.alone.inv.order 1)
    rw [b.alone.inv.begins_drop, b.alone.covers, Nat.mul_comm, Nat.sub_add_comm le]

theorem single_undeleted {s : MpmcRun Unit T}
    (h : (mpmcMachine Unit T).ReachWith NoSpurious s) {c : Nat}
    (touch : (s.threads ()).touches = some c) : c ∉ s.queue.retired ∧ c ∉ s.queue.discarded := by
  have unheld : (mpmcMachine Unit T).ReachWith DeletesUnheld s := by
    refine h.mono fun r op _ => ?_
    cases op with
    | advance t => exact fun _ _ u hu => absurd (Subsingleton.elim u t) hu
    | push | pop | failWeak => trivial
  obtain ⟨inv, past⟩ := reach_past_retired unheld
  exact past.undeleted inv touch

/-- For one thread the queue is an unbounded FIFO queue: every series of calls is served with its
results, no reference is left between calls, the chunks not yet deleted are those from the last
popped index to the last pushed one, and at any point the call in progress returns and is not
about to access a deleted chunk. -/
theorem mpmc_sequential (calls : List (QueueCall T)) :
    (∃ s, Served calls (fifo calls).2 s) ∧
    (∀ results s, Served calls results s →
      results = (fifo calls).2 ∧
      (∀ c, c < s.queue.fresh → (s.queue.chunks c).refCount = 0) ∧
      ∃ live : List Nat, live.Nodup ∧ (∀ c, c ∈ live ↔ s.queue.Live c) ∧
        live.map (fun c => (s.queue.chunks c).beginIndex) =
          List.range' (CHUNK_SIZE * ((results.countP Option.isSome - 1) / CHUNK_SIZE))
            ((calls.countP QueueCall.isPush - 1) / CHUNK_SIZE -
              (results.countP Option.isSome - 1) / CHUNK_SIZE + 1) CHUNK_SIZE) ∧
    ∀ s : MpmcRun Unit T, (mpmcMachine Unit T).ReachWith NoSpurious s →
      (∃ calls results s', Solo () s s' ∧ Served calls results s') ∧
      ∀ c, (s.threads ()).touches = some c → c ∉ s.queue.retired ∧ c ∉ s.queue.discarded := by
  have agrees : ∀ results s, Served calls results s → results = (fifo calls).2 := by
    intro results s served
    rw [(served_between served).2.agrees]
  refine ⟨?_, ?_, fun s h => ⟨solo_returns h, fun c touch => single_undeleted h touch⟩⟩
  · obtain ⟨results, s, served⟩ := served_exists calls
    exact ⟨s, agrees results s served ▸ served⟩
  · intro results s served
    obtain ⟨-, b⟩ := served_between served
    refine ⟨agrees results s served, fun c hc => b.alone.quiet.refs c (b.used c hc), ?_⟩
    rw [← b.pops, ← b.pushes]
    exact ⟨_, b.live⟩

end

end Xuanqiong
