import Mathlib.Data.List.Basic
import NaturalNames.Proofs.Machine

/-!
# `NaturalNames.Proofs.Machine.Pool`: workers and their messages

A `Machine` gives the order in which pieces of work come in as a permutation. Here is where it comes
from. A `Pool` starts a worker for each chunk, one after the other. Every worker that was started
may be the next to finish; it then sends the number of its chunk with the result. When all workers
were started the messages are received, in the order in which they were sent, until no worker is
left that could send another one. `Step` is one step of all this, and `Steps` any number of them.

* `perm_answers_of_step`: a step neither loses a message, still to be sent or not, nor adds one.
* `remaining_of_step`: it is one of a fixed number of steps that are left to do.
* `exists_step`: there is always one to do, until the pool is done.
* `perm_received`, `steps_of_perm`: when it is done it has received the answers of all workers, in
  an order of which nothing else is known. `perm_messages` and `exists_machine` say the same of the
  messages that come in on a machine, so machines and pools go through the same orders.
* `inOrder_of_perm`: the results are put back in order.

`results_in_order` says this of the chunks of a list. Workers are taken to come to an end, as `work`
is a function.
-/

set_option autoImplicit false

namespace NaturalNames.Machine

variable {α β : Type}

/-! ### The pool -/

/-- A pool of workers on numbered chunks, in the middle of its work. -/
structure Pool (α β : Type) where
  /-- The chunks that no worker was started for yet, in order. -/
  waiting : List (List α × Nat)
  /-- The chunks that workers are on. -/
  working : List (List α × Nat)
  /-- The messages on their way, the oldest first. -/
  channel : List (Nat × β)
  /-- The messages that were received, the oldest first. -/
  received : List (Nat × β)

/-- The message about a chunk: its number and the result. -/
def answer (work : List α → β) (job : List α × Nat) : Nat × β := (job.2, work job.1)

/-- The messages about all chunks, in the order of the chunks. -/
def answers (work : List α → β) (chunks : List (List α)) : List (Nat × β) :=
  chunks.zipIdx.map (answer work)

namespace Pool

/-- The pool before its first step. -/
def start (chunks : List (List α)) : Pool α β := ⟨chunks.zipIdx, [], [], []⟩

/-- No worker is to be started, none is at work and no message is on its way. -/
def Done (pool : Pool α β) : Prop := pool.waiting = [] ∧ pool.working = [] ∧ pool.channel = []

/-- What a pool may do next. -/
inductive Step (work : List α → β) : Pool α β → Pool α β → Prop
  /-- A worker is started on the first chunk that waits. -/
  | start {job : List α × Nat} {waiting working : List (List α × Nat)}
      {channel received : List (Nat × β)} :
      Step work ⟨job :: waiting, working, channel, received⟩
        ⟨waiting, job :: working, channel, received⟩
  /-- One of the workers finishes. -/
  | send {job : List α × Nat} {waiting : List (List α × Nat)} (front back : List (List α × Nat))
      {channel received : List (Nat × β)} :
      Step work ⟨waiting, front ++ job :: back, channel, received⟩
        ⟨waiting, front ++ back, channel ++ [answer work job], received⟩
  /-- All workers were started, and the oldest message is received. -/
  | receive {working : List (List α × Nat)} {message : Nat × β}
      {channel received : List (Nat × β)} :
      Step work ⟨[], working, message :: channel, received⟩
        ⟨[], working, channel, received ++ [message]⟩

/-- So many steps, one after the other. -/
inductive Steps (work : List α → β) : Nat → Pool α β → Pool α β → Prop
  | refl (pool : Pool α β) : Steps work 0 pool pool
  | tail {n : Nat} {first pool next : Pool α β} (steps : Steps work n first pool)
      (step : Step work pool next) : Steps work (n + 1) first next

variable {work : List α → β} {chunks : List (List α)} {pool next : Pool α β} {n : Nat}

/-! ### What a step keeps -/

/-- All messages of a pool: received, on their way and still to be sent. -/
def answers (work : List α → β) (pool : Pool α β) : List (Nat × β) :=
  pool.received ++ pool.channel ++ (pool.working ++ pool.waiting).map (answer work)

/-- A step loses no answer and makes none up. -/
theorem perm_answers_of_step (h : Step work pool next) :
    (next.answers work).Perm (pool.answers work) := by
  cases h with
  | start => exact (List.perm_middle.symm.map _).append_left _
  | @send job waiting front back channel received =>
    -- The chunk leaves those at work, and its answer stands at the end of the channel.
    have hmiddle : ((front ++ job :: back) ++ waiting).Perm (job :: (front ++ back ++ waiting)) :=
      List.perm_middle.append_right waiting
    simp only [answers]
    rw [← List.append_assoc received, List.append_assoc (received ++ channel),
      List.singleton_append]
    exact ((hmiddle.map (answer work)).append_left _).symm
  | receive =>
    simp only [answers, List.append_assoc, List.singleton_append]
    exact .refl _

/-- The steps that are left to do: each chunk is started, its answer sent and received. -/
def remaining (pool : Pool α β) : Nat :=
  3 * pool.waiting.length + 2 * pool.working.length + pool.channel.length

/-- A step leaves one thing less to do. -/
theorem remaining_of_step (h : Step work pool next) : next.remaining + 1 = pool.remaining := by
  cases h <;> simp only [remaining, List.length_cons, List.length_append, List.length_nil] <;> omega

/-- Nothing remains to be done when the pool is done. -/
theorem remaining_eq_zero_iff : pool.remaining = 0 ↔ pool.Done := by
  simp only [remaining, Done, ← List.length_eq_zero_iff]
  omega

/-- A pool that is not done can go on. -/
theorem exists_step (h : ¬pool.Done) : ∃ next, Step work pool next := by
  obtain ⟨waiting, working, channel, received⟩ := pool
  -- Nothing is received while a chunk waits, so that comes first.
  match waiting, working, channel with
  | job :: waiting, _, _ => exact ⟨_, .start⟩
  | [], _, message :: channel => exact ⟨_, .receive⟩
  | [], job :: working, [] => exact ⟨_, .send [] working⟩
  | [], [], [] => exact absurd ⟨rfl, rfl, rfl⟩ h

/-! ### Runs -/

/-- Steps may follow steps. -/
theorem Steps.trans {m : Nat} {first : Pool α β} (h : Steps work m first pool)
    (h' : Steps work n pool next) : Steps work (m + n) first next := by
  induction h' with
  | refl => exact h
  | tail _ step ih => exact (ih h).tail step

/-- A run loses no answer and makes none up, by induction on its steps. -/
theorem perm_answers_of_steps {first : Pool α β} (h : Steps work n first pool) :
    (pool.answers work).Perm (first.answers work) := by
  induction h with
  | refl => exact .refl _
  | tail _ step ih => exact (perm_answers_of_step step).trans ih

/-- A run leaves as much less to do as it has steps. -/
theorem remaining_of_steps {first : Pool α β} (h : Steps work n first pool) :
    pool.remaining + n = first.remaining := by
  induction h with
  | refl => rfl
  | tail _ step ih =>
    have hstep := remaining_of_step step
    omega

/-- A pool on some chunks is done after three steps for each of them, and not before. -/
theorem remaining_of_steps_start (h : Steps work n (start chunks) pool) :
    pool.remaining + n = 3 * chunks.length := by
  have hremaining := remaining_of_steps h
  simpa [start, remaining] using hremaining

/-- When it is done it has received every answer once. -/
theorem perm_received (h : Steps work n (start chunks) pool) (hdone : pool.Done) :
    pool.received.Perm (Machine.answers work chunks) := by
  have hperm := perm_answers_of_steps h
  obtain ⟨hwaiting, hworking, hchannel⟩ := hdone
  simpa [start, answers, Machine.answers, hwaiting, hworking, hchannel] using hperm

/-! ### Every order of the answers -/

section

variable {waiting working : List (List α × Nat)} {channel received messages : List (Nat × β)}

/-- All jobs that wait can be started one by one. -/
theorem exists_steps_start : ∃ n, Steps work n ⟨waiting, working, channel, received⟩
    ⟨[], waiting.reverse ++ working, channel, received⟩ := by
  induction waiting generalizing working with
  | nil => exact ⟨0, .refl _⟩
  | cons job rest ih =>
    obtain ⟨n, hsteps⟩ := @ih (job :: working)
    rw [List.reverse_cons, List.append_assoc, List.singleton_append]
    exact ⟨_, (Steps.tail (.refl _) .start).trans hsteps⟩

/-- The workers may finish in any order. -/
theorem exists_steps_send (h : messages.Perm (working.map (answer work))) :
    ∃ n, Steps work n ⟨[], working, channel, received⟩ ⟨[], [], channel ++ messages, received⟩ := by
  induction messages generalizing working channel with
  | nil =>
    obtain rfl : working = [] := List.map_eq_nil_iff.1 (List.nil_perm.1 h)
    rw [List.append_nil]
    exact ⟨0, .refl _⟩
  | cons message rest ih =>
    -- The first message is that of some job, wherever that stands among those at work.
    obtain ⟨job, hjob, rfl⟩ := List.mem_map.1 (h.subset (List.mem_cons_self ..))
    obtain ⟨front, back, rfl⟩ := List.append_of_mem hjob
    have hrest : rest.Perm ((front ++ back).map (answer work)) :=
      (h.trans (List.perm_middle.map _)).cons_inv
    obtain ⟨n, hsteps⟩ := @ih (front ++ back) (channel ++ [answer work job]) hrest
    rw [List.append_assoc, List.singleton_append] at hsteps
    exact ⟨_, (Steps.tail (.refl _) (.send front back)).trans hsteps⟩

/-- All answers in the channel can be received one by one. -/
theorem exists_steps_receive : ∃ n, Steps work n ⟨[], [], channel, received⟩
    ⟨[], [], [], received ++ channel⟩ := by
  induction channel generalizing received with
  | nil =>
    rw [List.append_nil]
    exact ⟨0, .refl _⟩
  | cons message rest ih =>
    obtain ⟨n, hsteps⟩ := @ih (received ++ [message])
    rw [List.append_assoc, List.singleton_append] at hsteps
    exact ⟨_, (Steps.tail (.refl _) .receive).trans hsteps⟩

/-- Every order of the answers is one in which a pool may receive them. -/
theorem steps_of_perm (h : messages.Perm (Machine.answers work chunks)) :
    Steps work (3 * chunks.length) (start chunks) ⟨[], [], [], messages⟩ := by
  have hstarted : messages.Perm ((chunks.zipIdx.reverse ++ []).map (answer work)) := by
    rw [List.append_nil]
    exact h.trans ((List.reverse_perm _).map _).symm
  -- All workers are started, they finish in this order, and then all messages are received.
  obtain ⟨k, hstart⟩ := exists_steps_start
  obtain ⟨l, hsend⟩ := exists_steps_send hstarted
  obtain ⟨m, hreceive⟩ := exists_steps_receive
  have hsteps : Steps work (k + l + m) (start chunks) ⟨[], [], [], messages⟩ :=
    (hstart.trans hsend).trans hreceive
  -- At the end of a run it is known how long it was.
  have hlength := remaining_of_steps_start hsteps
  rw [remaining_eq_zero_iff.2 ⟨rfl, rfl, rfl⟩, Nat.zero_add] at hlength
  rwa [hlength] at hsteps

end

end Pool

/-! ### Machines -/

section

variable {work : List α → β} {chunks : List (List α)} {messages : List (Nat × β)}

/-- The answers are numbered by the chunks. -/
theorem map_fst_answers (work : List α → β) (chunks : List (List α)) :
    (answers work chunks).map Prod.fst = List.range chunks.length := by
  rw [answers, List.map_map, List.range_eq_range']
  exact List.zipIdx_map_snd 0 chunks

/-- The messages that come in are determined by their numbers. -/
theorem filterMap_numbers (h : ∀ message ∈ messages, message ∈ answers work chunks) :
    ((messages.map Prod.fst).filterMap fun i => chunks[i]?.map fun chunk => (i, work chunk))
      = messages := by
  rw [List.filterMap_map]
  refine (List.filterMap_congr fun message hmessage => ?_).trans List.filterMap_some
  obtain ⟨job, hjob, rfl⟩ := List.mem_map.1 (h message hmessage)
  have hchunk : chunks[job.2]? = some job.1 := List.mem_zipIdx_iff_getElem?.1 hjob
  show (chunks[job.2]?.map fun chunk => (job.2, work chunk)) = some (job.2, work job.1)
  rw [hchunk]
  rfl

/-- A machine receives every answer once, in some order. -/
theorem perm_messages (machine : Machine) (work : List α → β) (chunks : List (List α)) :
    (machine.messages work chunks).Perm (answers work chunks) := by
  have hturn := filterMap_numbers fun message (h : message ∈ answers work chunks) => h
  rw [map_fst_answers] at hturn
  exact ((machine.arrival_perm chunks.length).filterMap _).trans (.of_eq hturn)

/-- Answers in any order come in on some machine. -/
theorem exists_machine (processors : Nat) (h : messages.Perm (answers work chunks)) :
    ∃ machine : Machine,
      machine.processors = processors ∧ machine.messages work chunks = messages := by
  have hnumbers : (messages.map Prod.fst).Perm (List.range chunks.length) := by
    rw [← map_fst_answers work]
    exact h.map _
  -- Only the order in which so many pieces come in matters.
  let machine : Machine := {
    processors := processors
    arrival := fun n => if n = chunks.length then messages.map Prod.fst else List.range n
    arrival_perm := by
      intro n
      split
      next hn => exact hn ▸ hnumbers
      next => exact .refl _ }
  refine ⟨machine, rfl, ?_⟩
  have harrival : machine.arrival chunks.length = messages.map Prod.fst := if_pos rfl
  rw [Machine.messages, harrival]
  exact filterMap_numbers fun _ hmessage => h.subset hmessage

/-- Answers in any order are put back in that of the chunks. -/
theorem inOrder_of_perm (h : messages.Perm (answers work chunks)) :
    inOrder messages = chunks.map work := by
  obtain ⟨machine, -, rfl⟩ := exists_machine 1 h
  exact inOrder_messages machine work chunks

end

/-! ### Results -/

/-- The chunks that a list is cut into. -/
def chunksFor (processors factor : Nat) (items : List α) : List (List α) :=
  splitEvery (chunkLength items.length (chunkTarget processors factor)) items

/-- A pool on some chunks comes to an end, with the results in order whatever its workers do. -/
structure Delivers (work : List α → β) (chunks : List (List α)) : Prop where
  /-- A run has three steps for each chunk: starting it, sending its answer and receiving that. It
  is at its end when they have been done. -/
  ends : ∀ n pool, Pool.Steps work n (.start chunks) pool →
    n ≤ 3 * chunks.length ∧ (pool.Done ↔ n = 3 * chunks.length)
  /-- Until then it goes on. -/
  goes_on : ∀ n pool, Pool.Steps work n (.start chunks) pool → n < 3 * chunks.length →
    ∃ next, Pool.Step work pool next
  /-- Then it has received every answer once, and any order of the answers is that of some run. -/
  received_iff : ∀ messages,
    Pool.Steps work (3 * chunks.length) (.start chunks) ⟨[], [], [], messages⟩
      ↔ messages.Perm (answers work chunks)
  /-- These are the orders in which messages come in on machines. -/
  arrives_iff : ∀ processors messages,
    (∃ machine : Machine, machine.processors = processors ∧ machine.messages work chunks = messages)
      ↔ messages.Perm (answers work chunks)
  /-- From each of them the results are put back in the order of the chunks. -/
  results : ∀ messages, messages.Perm (answers work chunks) → inOrder messages = chunks.map work

/-- Whatever the work and the chunks, the pool goes on until it has received every answer once. -/
theorem delivers (work : List α → β) (chunks : List (List α)) : Delivers work chunks where
  ends n pool hsteps := by
    -- Each step leaves one thing less to do, and at the start there are three for each chunk.
    have hremaining := Pool.remaining_of_steps_start hsteps
    rw [← Pool.remaining_eq_zero_iff]
    omega
  goes_on n pool hsteps hlt := by
    have hremaining := Pool.remaining_of_steps_start hsteps
    refine Pool.exists_step fun hdone => ?_
    rw [← Pool.remaining_eq_zero_iff] at hdone
    omega
  received_iff messages :=
    ⟨fun hsteps => Pool.perm_received hsteps ⟨rfl, rfl, rfl⟩, Pool.steps_of_perm⟩
  arrives_iff processors messages := by
    refine ⟨?_, exists_machine processors⟩
    rintro ⟨machine, -, rfl⟩
    exact perm_messages machine work chunks
  results messages := inOrder_of_perm

/-- **Chunked work gives its results in order.** With one processor or more, for every factor and
every list, the list is cut into consecutive chunks, none of them empty, that make up the list. They
are at most as many as there are processors, times the factor, where a factor of zero counts as one;
where that product leaves a word of 64 bits, fewer are asked for.
What comes back on every machine is the work on these chunks, one result for each in the order of
the chunks, and nothing for the empty list. The messages may come in on a machine in any order, and
each order is one in which a pool of workers may send them: every run of such a pool comes to an
end, with one message from each worker, and the results are put back in order. -/
theorem results_in_order {processors : Nat} (hprocessors : 1 ≤ processors) (factor : Nat)
    (items : List α) :
    (chunksFor processors factor items).flatten = items ∧
      (∀ chunk ∈ chunksFor processors factor items, chunk ≠ []) ∧
      (chunksFor processors factor items).length ≤ processors * max factor 1 ∧
      ∀ (β : Type) (work : List α → β),
        (∀ machine : Machine, machine.processors = processors →
          machine.mapChunks factor work items = (chunksFor processors factor items).map work ∧
          (items = [] → machine.mapChunks factor work items = [])) ∧
        Delivers work (chunksFor processors factor items) := by
  have hpos : 1 ≤ processors * max factor 1 := Nat.mul_pos hprocessors (Nat.le_max_right _ _)
  -- A product that comes round gives fewer chunks and no others.
  have hlength : (chunksFor processors factor items).length ≤ processors * max factor 1 :=
    Nat.le_trans (length_splitEvery_chunkLength_le items _)
      (Nat.max_le.2 ⟨chunkTarget_le processors factor, hpos⟩)
  refine ⟨flatten_splitEvery _ items, fun _ => ne_nil_of_mem_splitEvery, hlength,
    fun β work => ⟨?_, delivers work _⟩⟩
  intro machine hmachine
  have hmap : machine.mapChunks factor work items
      = (chunksFor processors factor items).map work := by
    rw [mapChunks_eq_map, hmachine, chunksFor]
  refine ⟨hmap, fun hitems => ?_⟩
  rw [hmap, List.map_eq_nil_iff, chunksFor, hitems, splitEvery]

/-- Ten numbers on three processors: chunks of four, four and two. On the machine the last one comes
in first. In the pool the third worker is the first to finish, and the second the last. -/
theorem results_in_order_backwards :
    let work : List Nat → Nat := List.foldl (· + ·) 0
    let items := [0, 1, 2, 3, 4, 5, 6, 7, 8, 9]
    let machine : Machine := ⟨3, fun n => (List.range n).reverse, fun _ => List.reverse_perm _⟩
    1 ≤ 3 ∧ machine.mapChunks 0 work items = [6, 22, 17] ∧
      Pool.Steps work 9 (.start [[0, 1, 2, 3], [4, 5, 6, 7], [8, 9]])
        ⟨[], [], [], [(2, 17), (0, 6), (1, 22)]⟩ := by
  intro work items machine
  have hchunks : chunksFor 3 0 items = [[0, 1, 2, 3], [4, 5, 6, 7], [8, 9]] := by decide +kernel
  obtain ⟨-, -, -, hwork⟩ := results_in_order (by decide : 1 ≤ 3) 0 items
  rw [hchunks] at hwork
  obtain ⟨hmachines, hpool⟩ := hwork Nat work
  exact ⟨by decide, (hmachines machine rfl).1, (hpool.received_iff _).2 (by decide)⟩

end NaturalNames.Machine
