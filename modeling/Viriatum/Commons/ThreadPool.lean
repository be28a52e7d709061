import Viriatum.Library.Totals

/-!
# The pool of threads

Tasks are queued by the threads that ask for them and taken by the workers of the pool, under a lock and with a condition
that the workers wait for. Over every interleaving no task is lost, none is started twice, and no worker sleeps over a
task.
-/

namespace Viriatum

open Library

variable {τ : Type}

/-- Where a worker stands: before the lock, at the test of the queue, in the wait for the condition, woken and before the
lock again, with a task and the lock, with a task before its start, and in it. -/
inductive WorkerState (τ : Type) where
  | entering
  | testing
  | waiting
  | waking
  | leaving (task : τ)
  | starting (task : τ)
  | running (task : τ)
deriving DecidableEq, Repr

/-- Where a thread stands that asks for a task. -/
inductive InsertState (τ : Type) where
  | entering (task : τ)
  | appending (task : τ)
  | signalling
  | leaving
  | done
deriving DecidableEq, Repr

/-- A pool, with the tasks that have been asked for, queued, taken and started. -/
structure ThreadPool (τ : Type) where
  workers : List (WorkerState τ)
  inserts : List (InsertState τ) := []
  taskQueue : List τ := []
  locked : Bool := false
  asked : List τ := []
  queued : List τ := []
  taken : List τ := []
  started : List τ := []

namespace ThreadPool

variable (pool : ThreadPool τ)

/-- `create_thread_pool` -/
def create (numberThreads : Nat) : ThreadPool τ := { workers := List.replicate numberThreads .entering }

def setWorker (index : Nat) (state : WorkerState τ) : ThreadPool τ := { pool with workers := pool.workers.set index state }

def setInsert (index : Nat) (state : InsertState τ) : ThreadPool τ := { pool with inserts := pool.inserts.set index state }

/-- A worker that waits is woken, by a signal or without one. -/
def wake (index : Nat) : ThreadPool τ :=
  match pool.workers[index]? with
  | some .waiting => pool.setWorker index .waking
  | _ => pool

/-- The worker that a signal wakes: any of those that wait. -/
def signalled [DecidableEq τ] (choice : Nat) : Nat :=
  if pool.workers[choice]? = some .waiting then choice else pool.workers.findIdx (· = .waiting)

/-- The next step of a thread in `insert_task_thread_pool`. -/
def insertStep [DecidableEq τ] (index choice : Nat) : ThreadPool τ :=
  match pool.inserts[index]? with
  | some (.entering task) => if pool.locked then pool else { pool.setInsert index (.appending task) with locked := true }
  | some (.appending task) =>
      { pool.setInsert index .signalling with taskQueue := pool.taskQueue ++ [task], queued := pool.queued ++ [task] }
  | some .signalling => (pool.setInsert index .leaving).wake (pool.signalled choice)
  | some .leaving => { pool.setInsert index .done with locked := false }
  | _ => pool

/-- The next step of a worker in `pool_runner_thread`. -/
def workerStep (index : Nat) : ThreadPool τ :=
  match pool.workers[index]? with
  | some .entering => if pool.locked then pool else { pool.setWorker index .testing with locked := true }
  | some .testing =>
      match pool.taskQueue with
      | [] => { pool.setWorker index .waiting with locked := false }
      | task :: rest => { pool.setWorker index (.leaving task) with taskQueue := rest, taken := pool.taken ++ [task] }
  | some .waking => if pool.locked then pool else { pool.setWorker index .testing with locked := true }
  | some (.leaving task) => { pool.setWorker index (.starting task) with locked := false }
  | some (.starting task) => { pool.setWorker index (.running task) with started := pool.started ++ [task] }
  | some (.running _) => pool.setWorker index .entering
  | _ => pool

end ThreadPool

/-- A task is asked for, a thread takes its next step, or a worker is woken without a signal. -/
inductive ThreadPoolEvent (τ : Type) where
  | insert (task : τ)
  | insertStep (index choice : Nat)
  | workerStep (index : Nat)
  | wake (index : Nat)

namespace ThreadPool

section

variable [DecidableEq τ]

def step (pool : ThreadPool τ) : ThreadPoolEvent τ → ThreadPool τ
  | .insert task => { pool with inserts := pool.inserts ++ [.entering task], asked := pool.asked ++ [task] }
  | .insertStep index choice => pool.insertStep index choice
  | .workerStep index => pool.workerStep index
  | .wake index => pool.wake index

def run (numberThreads : Nat) (events : List (ThreadPoolEvent τ)) : ThreadPool τ := events.foldl step (create numberThreads)

end

end ThreadPool

/-! ## What the threads hold -/

namespace WorkerState

def holds : WorkerState τ → Nat
  | testing => 1
  | leaving _ => 1
  | _ => 0

def waits : WorkerState τ → Nat
  | waiting => 1
  | _ => 0

/-- Whether a worker comes to the queue. -/
def comes : WorkerState τ → Nat
  | entering => 1
  | testing => 1
  | waking => 1
  | _ => 0

/-- The task that has been taken and is not started yet. -/
def task : WorkerState τ → Option τ
  | leaving task => some task
  | starting task => some task
  | _ => none

def carries [DecidableEq τ] (task : τ) (state : WorkerState τ) : Nat := if state.task = some task then 1 else 0

theorem carries_eq [DecidableEq τ] (task : τ) (state : WorkerState τ) :
    state.carries task = if state.task = some task then 1 else 0 := rfl

end WorkerState

namespace InsertState

def holds : InsertState τ → Nat
  | appending _ => 1
  | signalling => 1
  | leaving => 1
  | _ => 0

def signals : InsertState τ → Nat
  | signalling => 1
  | _ => 0

/-- The task that has been asked for and is not queued yet. -/
def task : InsertState τ → Option τ
  | entering task => some task
  | appending task => some task
  | _ => none

def carries [DecidableEq τ] (task : τ) (state : InsertState τ) : Nat := if state.task = some task then 1 else 0

theorem carries_eq [DecidableEq τ] (task : τ) (state : InsertState τ) :
    state.carries task = if state.task = some task then 1 else 0 := rfl

end InsertState

namespace ThreadPool

variable [DecidableEq τ] {pool : ThreadPool τ} {index : Nat}

/-- The lock is held by one thread at most, no task is lost or there twice, and a worker waits only where there are as many
others to come, or to be woken, as there are tasks. -/
structure Sound (pool : ThreadPool τ) : Prop where
  lock : total WorkerState.holds pool.workers + total InsertState.holds pool.inserts = if pool.locked then 1 else 0
  queued : pool.queued = pool.taken ++ pool.taskQueue
  asked : ∀ task, pool.asked.count task =
    total (InsertState.carries task) pool.inserts + pool.queued.count task
  taken : ∀ task, pool.taken.count task =
    total (WorkerState.carries task) pool.workers + pool.started.count task
  awake : total WorkerState.waits pool.workers = 0 ∨
    pool.taskQueue.length ≤ total WorkerState.comes pool.workers + total InsertState.signals pool.inserts

theorem create_sound (numberThreads : Nat) : (create numberThreads : ThreadPool τ).Sound where
  lock := by
    have hholds : total WorkerState.holds (List.replicate numberThreads (.entering : WorkerState τ)) = 0 :=
      total_eq_zero.mpr fun state hin => by rw [(List.mem_replicate.mp hin).2]; rfl
    simp [create, hholds]
  queued := rfl
  asked := by simp [create]
  taken task := by
    have hcarries : total (WorkerState.carries task) (List.replicate numberThreads .entering) = 0 :=
      total_eq_zero.mpr fun state hin => by rw [(List.mem_replicate.mp hin).2]; rfl
    simp [create, hcarries]
  awake := .inr (Nat.zero_le _)

/-- Whoever holds the lock has it locked. -/
theorem Sound.locked_of_worker {state : WorkerState τ} (h : pool.Sound) (hstate : pool.workers[index]? = some state)
    (hholds : state.holds = 1) : pool.locked = true := by
  have hle := le_total (List.mem_of_getElem? hstate) WorkerState.holds
  have hlock := h.lock
  by_contra hfree
  rw [if_neg hfree] at hlock
  omega

theorem Sound.locked_of_insert {state : InsertState τ} (h : pool.Sound) (hstate : pool.inserts[index]? = some state)
    (hholds : state.holds = 1) : pool.locked = true := by
  have hle := le_total (List.mem_of_getElem? hstate) InsertState.holds
  have hlock := h.lock
  by_contra hfree
  rw [if_neg hfree] at hlock
  omega

variable {pool' : ThreadPool τ}

/-- What a worker does keeps the invariant where it gives what the worker held and takes what it holds. -/
theorem Sound.worker {a b : WorkerState τ} (h : pool.Sound) (hstate : pool.workers[index]? = some a)
    (hworkers : pool'.workers = pool.workers.set index b) (hinserts : pool'.inserts = pool.inserts)
    (hasked : pool'.asked = pool.asked) (hqueued : pool'.queued = pool.queued)
    (hlock : (if pool'.locked then 1 else 0) + a.holds = (if pool.locked then 1 else 0) + b.holds)
    (hqueue : pool'.taken ++ pool'.taskQueue = pool.taken ++ pool.taskQueue)
    (htaken : ∀ task, pool'.taken.count task + pool.started.count task + a.carries task =
      pool.taken.count task + pool'.started.count task + b.carries task)
    (hawake : pool'.taskQueue.length = 0 ∨
      b.waits ≤ a.waits ∧ pool'.taskQueue.length + a.comes ≤ pool.taskQueue.length + b.comes) : pool'.Sound := by
  have hset := total_set hstate b
  refine ⟨?_, ?_, fun task => ?_, fun task => ?_, ?_⟩
  · have hholds := hset WorkerState.holds
    have := h.lock
    rw [hworkers, hinserts]
    omega
  · rw [hqueued, hqueue, h.queued]
  · rw [hasked, hinserts, hqueued, h.asked task]
  · have htask := hset (WorkerState.carries task)
    have := h.taken task
    have := htaken task
    rw [hworkers]
    omega
  · have hwaits := hset WorkerState.waits
    have hcomes := hset WorkerState.comes
    have := h.awake
    rw [hworkers, hinserts]
    omega

/-- What a thread that asks for a task does keeps the invariant, before the signal and behind it. -/
theorem Sound.insert {a b : InsertState τ} (h : pool.Sound) (hstate : pool.inserts[index]? = some a)
    (hworkers : pool'.workers = pool.workers) (hinserts : pool'.inserts = pool.inserts.set index b)
    (hasked : pool'.asked = pool.asked) (htaken : pool'.taken = pool.taken) (hstarted : pool'.started = pool.started)
    (hlock : (if pool'.locked then 1 else 0) + a.holds = (if pool.locked then 1 else 0) + b.holds)
    (hqueue : pool'.queued = pool.taken ++ pool'.taskQueue)
    (hqueued : ∀ task, pool'.queued.count task + b.carries task = pool.queued.count task + a.carries task)
    (hawake : pool'.taskQueue.length + a.signals ≤ pool.taskQueue.length + b.signals) : pool'.Sound := by
  have hset := total_set hstate b
  refine ⟨?_, ?_, fun task => ?_, fun task => ?_, ?_⟩
  · have hholds := hset InsertState.holds
    have := h.lock
    rw [hworkers, hinserts]
    omega
  · rw [hqueue, htaken]
  · have htask := hset (InsertState.carries task)
    have := h.asked task
    have := hqueued task
    rw [hasked, hinserts]
    omega
  · rw [hworkers, htaken, hstarted, h.taken task]
  · have hsignals := hset InsertState.signals
    have := h.awake
    rw [hworkers, hinserts]
    omega

theorem wake_sound (h : pool.Sound) (index : Nat) : (pool.wake index).Sound := by
  rw [wake]
  split
  next hstate => exact h.worker hstate rfl rfl rfl rfl rfl rfl (fun _ => rfl) (.inr ⟨Nat.zero_le _, Nat.le_succ _⟩)
  next => exact h

theorem workerStep_sound (h : pool.Sound) (index : Nat) : (pool.workerStep index).Sound := by
  rw [workerStep]
  cases hstate : pool.workers[index]? with
  | none => exact h
  | some state =>
      cases state with
      | entering =>
          dsimp only
          split
          next => exact h
          next hfree =>
            exact h.worker hstate rfl rfl rfl rfl (by simp [hfree, WorkerState.holds]) rfl (fun _ => rfl)
              (.inr ⟨Nat.le_refl _, Nat.le_refl _⟩)
      | waking =>
          dsimp only
          split
          next => exact h
          next hfree =>
            exact h.worker hstate rfl rfl rfl rfl (by simp [hfree, WorkerState.holds]) rfl (fun _ => rfl)
              (.inr ⟨Nat.le_refl _, Nat.le_refl _⟩)
      | testing =>
          have hlocked := h.locked_of_worker hstate rfl
          cases hqueue : pool.taskQueue with
          | nil =>
              dsimp only
              exact h.worker hstate rfl rfl rfl rfl (by simp [hlocked, WorkerState.holds]) (by simp [setWorker, hqueue])
                (fun _ => rfl) (.inl (by simp [setWorker, hqueue]))
          | cons task rest =>
              dsimp only
              refine h.worker hstate rfl rfl rfl rfl rfl (by simp [hqueue])
                (fun other => ?_) (.inr ⟨Nat.le_refl _, by simp [hqueue, WorkerState.comes]⟩)
              simp only [setWorker, WorkerState.carries, WorkerState.task, List.count_append, List.count_singleton, beq_iff_eq, Option.some.injEq,
                reduceCtorEq, if_false]
              omega
      | waiting => exact h
      | leaving task =>
          have hlocked := h.locked_of_worker hstate rfl
          exact h.worker hstate rfl rfl rfl rfl (by simp [hlocked, WorkerState.holds]) rfl (fun _ => rfl)
            (.inr ⟨Nat.le_refl _, Nat.le_refl _⟩)
      | starting task =>
          refine h.worker hstate rfl rfl rfl rfl rfl rfl (fun other => ?_) (.inr ⟨Nat.le_refl _, Nat.le_refl _⟩)
          simp only [setWorker, WorkerState.carries, WorkerState.task, List.count_append, List.count_singleton, beq_iff_eq, Option.some.injEq,
            reduceCtorEq, if_false]
          omega
      | running task => exact h.worker hstate rfl rfl rfl rfl rfl rfl (fun _ => rfl) (.inr ⟨Nat.le_refl _, Nat.le_succ _⟩)

theorem signalled_spec (pool : ThreadPool τ) (choice : Nat) :
    pool.workers[pool.signalled choice]? = some .waiting ∨ total WorkerState.waits pool.workers = 0 := by
  rw [signalled]
  split
  next hchoice => exact .inl hchoice
  next =>
    by_cases hwaits : ∃ worker ∈ pool.workers, worker = .waiting
    · obtain ⟨worker, hin, rfl⟩ := hwaits
      have hlt := List.findIdx_lt_length_of_exists (p := fun worker : WorkerState τ => worker = .waiting) ⟨_, hin, by simp⟩
      refine .inl ?_
      rw [List.getElem?_eq_getElem hlt]
      simpa using List.findIdx_getElem (w := hlt)
    · refine .inr (total_eq_zero.mpr fun worker hin => ?_)
      cases worker with
      | waiting => exact absurd ⟨_, hin, rfl⟩ hwaits
      | _ => rfl

theorem signal_sound (h : pool.Sound) (hstate : pool.inserts[index]? = some .signalling) (choice : Nat) :
    ((pool.setInsert index .leaving).wake (pool.signalled choice)).Sound := by
  have hset := total_set hstate .leaving
  have hholds := hset InsertState.holds
  have hsignals := hset InsertState.signals
  have hasked : ∀ task, total (InsertState.carries task) (pool.inserts.set index .leaving) =
      total (InsertState.carries task) pool.inserts := fun task => hset (InsertState.carries task)
  have hlock := h.lock
  have hawake := h.awake
  simp only [InsertState.holds, InsertState.signals] at hholds hsignals
  rcases signalled_spec pool choice with hwaiting | hnone
  · have hwoken := total_set hwaiting .waking
    have hlocks := hwoken WorkerState.holds
    have hwaits := hwoken WorkerState.waits
    have hcomes := hwoken WorkerState.comes
    simp only [WorkerState.holds, WorkerState.waits, WorkerState.comes] at hlocks hwaits hcomes
    rw [wake, setInsert, hwaiting]
    refine ⟨?_, h.queued, fun task => ?_, fun task => ?_, ?_⟩
    · refine Eq.trans ?_ hlock
      dsimp only [setWorker]
      omega
    · dsimp only [setWorker]
      rw [hasked, h.asked]
    · have htask : total (WorkerState.carries task) _ = total (WorkerState.carries task) pool.workers :=
        hwoken (WorkerState.carries task)
      dsimp only [setWorker]
      rw [htask, h.taken]
    · dsimp only [setWorker]
      omega
  · have hsame : (pool.setInsert index .leaving).wake (pool.signalled choice) = pool.setInsert index .leaving := by
      rw [wake]
      split
      next hwaiting =>
        have := total_eq_zero.mp hnone _ (List.mem_of_getElem? hwaiting)
        simp [WorkerState.waits] at this
      next => rfl
    rw [hsame, setInsert]
    refine ⟨?_, h.queued, fun task => ?_, h.taken, .inl hnone⟩
    · refine Eq.trans ?_ hlock
      dsimp only
      omega
    · dsimp only
      rw [hasked, h.asked]

theorem insertStep_sound (h : pool.Sound) (index choice : Nat) : (pool.insertStep index choice).Sound := by
  rw [insertStep]
  cases hstate : pool.inserts[index]? with
  | none => exact h
  | some state =>
      cases state with
      | entering task =>
          dsimp only
          split
          next => exact h
          next hfree =>
            exact h.insert hstate rfl rfl rfl rfl rfl (by simp [hfree, InsertState.holds]) h.queued (fun _ => rfl) (Nat.le_refl _)
      | appending task =>
          dsimp only
          refine h.insert hstate rfl rfl rfl rfl rfl rfl (by simp [h.queued]) (fun other => ?_)
            (by simp [InsertState.signals])
          simp only [InsertState.carries, InsertState.task, List.count_append, List.count_singleton, beq_iff_eq, Option.some.injEq, reduceCtorEq,
            if_false]
          omega
      | signalling => exact signal_sound h hstate choice
      | leaving =>
          have hlocked := h.locked_of_insert hstate rfl
          exact h.insert hstate rfl rfl rfl rfl rfl (by simp [hlocked, InsertState.holds]) h.queued (fun _ => rfl)
            (Nat.le_refl _)
      | done => exact h

theorem step_sound (h : pool.Sound) (event : ThreadPoolEvent τ) : (pool.step event).Sound := by
  cases event with
  | insert task =>
      refine ⟨?_, h.queued, fun other => ?_, h.taken, by simpa [step, InsertState.signals] using h.awake⟩
      · simp only [step, total_concat, InsertState.holds, Nat.add_zero]
        exact h.lock
      · simp only [step, total_concat, List.count_append, List.count_singleton, beq_iff_eq, InsertState.carries, InsertState.task,
          Option.some.injEq, h.asked other]
        omega
  | insertStep index choice => exact insertStep_sound h index choice
  | workerStep index => exact workerStep_sound h index
  | wake index => exact wake_sound h index

theorem run_sound (numberThreads : Nat) (events : List (ThreadPoolEvent τ)) : (run numberThreads events).Sound := by
  rw [run]
  generalize hstart : (create numberThreads : ThreadPool τ) = pool
  have h : pool.Sound := hstart ▸ create_sound numberThreads
  clear hstart
  induction events generalizing pool with
  | nil => exact h
  | cons event events ih => exact ih _ (step_sound h event)

/-- Nothing goes on but the tasks that have been started: no step of another thread changes anything. -/
def Still (pool : ThreadPool τ) : Prop :=
  (∀ index choice, pool.insertStep index choice = pool) ∧
    ∀ index, (∃ task, pool.workers[index]? = some (.running task)) ∨ pool.workerStep index = pool

omit [DecidableEq τ] in
/-- A thread that has put another state in its place has gone on. -/
theorem worker_moves {a b : WorkerState τ} (hstate : pool.workers[index]? = some a)
    (hworkers : pool'.workers = pool.workers.set index b) (hne : a ≠ b) : pool' ≠ pool := by
  rintro rfl
  have hlt := (List.getElem?_eq_some_iff.mp hstate).1
  rw [hworkers, List.getElem?_set_self hlt, Option.some.injEq] at hstate
  exact hne hstate.symm

omit [DecidableEq τ] in
theorem insert_moves {a b : InsertState τ} (hstate : pool.inserts[index]? = some a)
    (hinserts : pool'.inserts = pool.inserts.set index b) (hne : a ≠ b) : pool' ≠ pool := by
  rintro rfl
  have hlt := (List.getElem?_eq_some_iff.mp hstate).1
  rw [hinserts, List.getElem?_set_self hlt, Option.some.injEq] at hstate
  exact hne hstate.symm

omit [DecidableEq τ] in
theorem inserts_wake (pool : ThreadPool τ) (index : Nat) : (pool.wake index).inserts = pool.inserts := by
  rw [wake]
  split <;> rfl

omit [DecidableEq τ] in
/-- A worker that does not go on waits for the condition or for the lock. -/
theorem worker_of_still {state : WorkerState τ} (hstate : pool.workers[index]? = some state)
    (h : pool.workerStep index = pool) :
    state = .waiting ∨ pool.locked = true ∧ state.holds = 0 := by
  rw [workerStep, hstate] at h
  cases state with
  | waiting => exact .inl rfl
  | entering =>
      cases hlocked : pool.locked with
      | true => exact .inr ⟨rfl, rfl⟩
      | false => exact absurd h (by simpa [hlocked] using worker_moves hstate rfl (by simp))
  | waking =>
      cases hlocked : pool.locked with
      | true => exact .inr ⟨rfl, rfl⟩
      | false => exact absurd h (by simpa [hlocked] using worker_moves hstate rfl (by simp))
  | testing =>
      cases hqueue : pool.taskQueue with
      | nil => exact absurd h (by simpa [hqueue] using worker_moves hstate rfl (by simp))
      | cons task rest => exact absurd h (by simpa [hqueue] using worker_moves hstate rfl (by simp))
  | leaving task => exact absurd h (worker_moves hstate rfl (by simp))
  | starting task => exact absurd h (worker_moves hstate rfl (by simp))
  | running task => exact absurd h (worker_moves hstate rfl (by simp))

theorem insert_of_still {state : InsertState τ} {choice : Nat} (hstate : pool.inserts[index]? = some state)
    (h : pool.insertStep index choice = pool) : state = .done ∨ pool.locked = true ∧ state.holds = 0 := by
  rw [insertStep, hstate] at h
  cases state with
  | done => exact .inl rfl
  | entering task =>
      cases hlocked : pool.locked with
      | true => exact .inr ⟨rfl, rfl⟩
      | false => exact absurd h (by simpa [hlocked] using insert_moves hstate rfl (by simp))
  | appending task => exact absurd h (insert_moves hstate rfl (by simp))
  | signalling => exact absurd h (insert_moves hstate (by rw [inserts_wake]; rfl) (by simp))
  | leaving => exact absurd h (insert_moves hstate rfl (by simp))

/-- The lock is not held where nothing goes on. -/
theorem free_of_still (h : pool.Sound) (hstill : pool.Still) : pool.locked = false := by
  by_contra hlocked
  have hworkers : total WorkerState.holds pool.workers = 0 := by
    refine total_eq_zero.mpr fun state hin => ?_
    obtain ⟨index, hstate⟩ := List.getElem?_of_mem hin
    rcases hstill.2 index with ⟨task, hrunning⟩ | hsame
    · rw [hstate] at hrunning
      cases hrunning
      rfl
    · rcases worker_of_still hstate hsame with rfl | ⟨-, hholds⟩
      · rfl
      · exact hholds
  have hinserts : total InsertState.holds pool.inserts = 0 := by
    refine total_eq_zero.mpr fun state hin => ?_
    obtain ⟨index, hstate⟩ := List.getElem?_of_mem hin
    rcases insert_of_still hstate (hstill.1 index 0) with rfl | ⟨-, hholds⟩
    · rfl
    · exact hholds
  have hlock := h.lock
  simp [hworkers, hinserts, hlocked] at hlock

/-! ## Main results -/

/-- However the threads are interleaved, each task that has been asked for is in one place: with the thread that asks for
it, in the queue, with the worker that has taken it, or started, once. Tasks are taken in the order in which they are queued,
and one thread at most has the lock. -/
theorem threadPool_tasks (numberThreads : Nat) (events : List (ThreadPoolEvent τ)) :
    let pool := run numberThreads events
    pool.asked.Perm (pool.inserts.filterMap InsertState.task ++ (pool.taskQueue ++
      (pool.workers.filterMap WorkerState.task ++ pool.started))) ∧
    pool.queued = pool.taken ++ pool.taskQueue ∧
    total WorkerState.holds pool.workers + total InsertState.holds pool.inserts ≤ 1 := by
  intro pool
  have h : pool.Sound := run_sound numberThreads events
  refine ⟨List.perm_iff_count.mpr fun task => ?_, h.queued, ?_⟩
  · have hasked := h.asked task
    have htaken := h.taken task
    have hqueued := congrArg (List.count task) h.queued
    have hinserts := count_filterMap InsertState.carries_eq pool.inserts task
    have hworkers := count_filterMap WorkerState.carries_eq pool.workers task
    simp only [List.count_append] at hqueued ⊢
    omega
  · rw [h.lock]
    split <;> omega

/-- However the threads are interleaved, there is no deadlock and no wake-up is lost: where nothing goes on but the tasks
that have been started, all that was asked for is queued, and the queue is empty or every worker is in a task. -/
theorem threadPool_still (numberThreads : Nat) (events : List (ThreadPoolEvent τ)) :
    let pool := run numberThreads events
    pool.Still → (∀ state ∈ pool.inserts, state = .done) ∧
      (∀ state ∈ pool.workers, state = .waiting ∨ ∃ task, state = .running task) ∧
      (pool.taskQueue = [] ∨ ∀ state ∈ pool.workers, ∃ task, state = .running task) := by
  intro pool hstill
  have h : pool.Sound := run_sound numberThreads events
  have hfree := free_of_still h hstill
  have hinserts : ∀ state ∈ pool.inserts, state = .done := by
    intro state hin
    obtain ⟨index, hstate⟩ := List.getElem?_of_mem hin
    rcases insert_of_still hstate (hstill.1 index 0) with hdone | ⟨hlocked, -⟩
    · exact hdone
    · simp [hfree] at hlocked
  have hworkers : ∀ state ∈ pool.workers, state = .waiting ∨ ∃ task, state = .running task := by
    intro state hin
    obtain ⟨index, hstate⟩ := List.getElem?_of_mem hin
    rcases hstill.2 index with ⟨task, hrunning⟩ | hsame
    · rw [hstate] at hrunning
      cases hrunning
      exact .inr ⟨task, rfl⟩
    · rcases worker_of_still hstate hsame with hwaiting | ⟨hlocked, -⟩
      · exact .inl hwaiting
      · simp [hfree] at hlocked
  refine ⟨hinserts, hworkers, ?_⟩
  rcases h.awake with hwaits | hqueue
  · refine .inr fun state hin => ?_
    rcases hworkers state hin with rfl | hrunning
    · simpa [WorkerState.waits] using total_eq_zero.mp hwaits _ hin
    · exact hrunning
  · have hcomes : total WorkerState.comes pool.workers = 0 := by
      refine total_eq_zero.mpr fun state hin => ?_
      rcases hworkers state hin with rfl | ⟨task, rfl⟩ <;> rfl
    have hsignals : total InsertState.signals pool.inserts = 0 := by
      refine total_eq_zero.mpr fun state hin => ?_
      rw [hinserts state hin]
      rfl
    rw [hcomes, hsignals] at hqueue
    exact .inl (List.eq_nil_of_length_eq_zero (by omega))

/-- Of two workers that wait, the second one is woken and has started the task, and the first one waits on. -/
theorem threadPool_still_started :
    let pool := run 2 [.workerStep 0, .workerStep 0, .workerStep 1, .workerStep 1, .insert 7, .insertStep 0 1, .insertStep 0 1,
      .insertStep 0 1, .insertStep 0 1, .workerStep 1, .workerStep 1, .workerStep 1, .workerStep 1]
    (∀ state ∈ pool.inserts, state = .done) ∧
      (∀ state ∈ pool.workers, state = .waiting ∨ ∃ task, state = .running task) ∧
      (pool.taskQueue = [] ∨ ∀ state ∈ pool.workers, ∃ task, state = .running task) := by
  refine threadPool_still 2 _ ⟨fun index choice => ?_, fun index => ?_⟩
  · rcases index with _ | index <;> rfl
  · rcases index with _ | _ | index
    · exact .inr rfl
    · exact .inl ⟨7, rfl⟩
    · exact .inr rfl

end ThreadPool

end Viriatum
