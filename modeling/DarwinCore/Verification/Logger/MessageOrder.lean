import DarwinCore.Library.Pipeline
import DarwinCore.Model.Logger.Logger

/-! # The order of a thread's messages

With one worker the shared queue, the worker and the queue of the logger are one pipeline. Nothing
is lost from it as long as the level is not raised over a message that is in it. With two, a task
can be overtaken between its leaving the one queue and its entering the other. -/

namespace DarwinCore.Log

open DarwinCore.Thread

/-! ## The pipeline -/

/-- The message of the task that a worker has, until it is in the queue of the logger. -/
def workerHand : Thread.WorkerPhase LogObj → BodyPhase → List LogObj
  | .taken t, _ => [t.task]
  | .calling t, _ => [t.task]
  | .executing t _, .entering => [t.task]
  | .executing t _, .holding => [t.task]
  | _, _ => []

def RunPhase.hand : RunPhase → List LogObj
  | taken obj => [obj]
  | _ => []

/-- The message that a thread has not yet put into the shared queue. -/
def callerHand : Option (SubmitPhase LogObj) → Option LogObj
  | some (.entering obj) => some obj
  | some (.holding obj) => some obj
  | _ => none

namespace LogSystem

variable {s t : LogSystem}

/-- From the file back to the shared queue, with one worker. -/
def pipe (s : LogSystem) : List LogObj :=
  s.logger.written ++ s.run.hand ++ s.logger.logs ++ workerHand (s.pool.workers 0) (s.bodies 0) ++
    s.pool.queue.taskQueue.map QueuedTask.task

def pipeline (s : LogSystem) : Pipeline ℕ LogObj where
  pipe := s.pipe
  hand i := callerHand (s.pool.submitters i)
  calls := s.calls
  sent := s.logged
  dropped := s.discarded

/-- What holds with at most one worker and no destructor. -/
structure OneWorker (s : LogSystem) : Prop where
  size : s.pool.queue.queueSize ≤ 1
  running : s.pool.queue.isRunning = true
  beyond : ∀ i, i ≠ 0 → s.pool.workers i = .entering
  idle : (∀ t p, s.pool.workers 0 ≠ .executing t p) → s.bodies 0 = .entering
  body : ∀ i, i ≠ 0 → s.bodies i = .entering

abbrev PipelineStep : Pipeline ℕ LogObj → Pipeline ℕ LogObj → Prop :=
  Pipeline.Step LogObj.caller LogObj.number

theorem OneWorker.eq_zero {i : ℕ} (h : OneWorker s) (hi : s.pool.workers i ≠ .entering) :
    i = 0 := by
  by_contra hne
  exact hi (h.beyond i hne)

theorem OneWorker.body_eq_zero {i : ℕ} (h : OneWorker s) (hi : s.bodies i ≠ .entering) :
    i = 0 := by
  by_contra hne
  exact hi (h.body i hne)

theorem notified_executing {pool : QueueSystem LogObj} {workers : ℕ → Thread.WorkerPhase LogObj}
    (h : pool.Notifies workers) (i : ℕ) :
    workers i = pool.workers i ∨ pool.workers i = .waiting ∧ workers i = .woken :=
  Monitor.NotifyOne.eq_or h i

/-- The queue serves its one worker and the callers. -/
theorem OneWorker.serve {pool : QueueSystem LogObj} (h : OneWorker s)
    (hserve : s.pool.ServeStep pool) : OneWorker { s with pool := pool } := by
  cases hserve with
  | @work i q p hi hwork =>
    obtain rfl : i = 0 := Nat.lt_one_iff.mp (Nat.lt_of_lt_of_le hi h.size)
    have hidle : (∀ t p', s.pool.workers 0 ≠ .executing t p') → s.bodies 0 = .entering := h.idle
    generalize hphase : s.pool.workers 0 = phase at hwork hidle
    have hbeyond : ∀ i, i ≠ 0 → ((s.pool.setQueue q).setWorker 0 p).workers i = .entering := by
      intro i hi
      simpa [QueueSystem.setWorker, QueueSystem.setQueue, hi] using h.beyond i hi
    have hsize : q.queueSize ≤ 1 ∧ q.isRunning = true := by
      cases hwork <;> exact ⟨h.size, h.running⟩
    refine ⟨hsize.1, hsize.2, hbeyond, fun _ => hidle fun t p' heq => ?_, h.body⟩
    rw [heq] at hwork
    cases hwork
  | submit hp hsubmit =>
    cases hsubmit <;> exact ⟨h.size, h.running, h.beyond, h.idle, h.body⟩
  | @notify i workers hp hnotify =>
    refine ⟨h.size, h.running, fun i hi => ?_, fun hno => h.idle fun t p heq => ?_, h.body⟩
    · rcases notified_executing hnotify i with hsame | ⟨hwaiting, -⟩
      · exact hsame.trans (h.beyond i hi)
      · rw [h.beyond i hi] at hwaiting
        cases hwaiting
    · rcases notified_executing hnotify 0 with hsame | ⟨hwaiting, -⟩
      · exact hno t p (hsame.trans heq)
      · rw [heq] at hwaiting
        cases hwaiting

theorem OneWorker.bodyStep (h : OneWorker s) (hbody : BodyStep s t) : OneWorker t := by
  have hother {i : ℕ} {p : BodyPhase} (hi : i = 0) :
      ∀ j, j ≠ 0 → Function.update s.bodies i p j = .entering := by
    intro j hj
    rw [hi, Function.update_of_ne hj]
    exact h.body j hj
  cases hbody with
  | @lock i t hp hb hfree =>
    have hi := h.eq_zero (i := i) (by simp [hp])
    subst hi
    exact ⟨h.size, h.running, h.beyond, fun hno => absurd hp (hno t none), hother rfl⟩
  | @emplace i t hp hb =>
    have hi := h.eq_zero (i := i) (by simp [hp])
    subst hi
    exact ⟨h.size, h.running, h.beyond, fun hno => absurd hp (hno t none), hother rfl⟩
  | @notify i hb =>
    have hi := h.body_eq_zero (i := i) (by simp [hb])
    subst hi
    refine ⟨h.size, h.running, h.beyond, fun hno => ?_, hother rfl⟩
    have hentering := h.idle hno
    rw [hb] at hentering
    cases hentering
  | @finish i t hp hb =>
    have hi := h.eq_zero (i := i) (by simp [hp])
    subst hi
    refine ⟨h.size, h.running, fun j hj => ?_, fun _ => ?_, hother rfl⟩
    · simpa [setBody, QueueSystem.setWorker, hj] using h.beyond j hj
    · simp [setBody]

theorem Step.oneWorker (hstep : Step s t) (h : OneWorker s) : OneWorker t := by
  cases hstep with
  | serve hserve => exact h.serve hserve
  | body hbody => exact h.bodyStep hbody
  | run hrun => cases hrun <;> exact ⟨h.size, h.running, h.beyond, h.idle, h.body⟩
  | _ => exact ⟨h.size, h.running, h.beyond, h.idle, h.body⟩

/-! ## The steps on the pipeline -/

theorem callerHand_setSubmitter (pool : QueueSystem LogObj) (i : ℕ)
    (p : Option (SubmitPhase LogObj)) :
    (fun j => callerHand ((pool.setSubmitter i p).submitters j)) =
      Function.update (fun j => callerHand (pool.submitters j)) i (callerHand p) := by
  funext j
  by_cases hj : j = i
  · subst hj
    simp [QueueSystem.setSubmitter]
  · simp [QueueSystem.setSubmitter, hj]

theorem pipeline_congr (hpipe : t.pipe = s.pipe)
    (hhand : ∀ i, callerHand (t.pool.submitters i) = callerHand (s.pool.submitters i))
    (hcalls : t.calls = s.calls) (hlogged : t.logged = s.logged)
    (hdiscarded : t.discarded = s.discarded) : t.pipeline = s.pipeline := by
  rw [LogSystem.pipeline, LogSystem.pipeline, hpipe, funext hhand, hcalls, hlogged, hdiscarded]

/-- The caller leaves the mutex, or waits for it: it keeps what it has. -/
theorem pipeline_setSubmitter {i : ℕ} {q : AsyncQueue LogObj} {p : Option (SubmitPhase LogObj)}
    (hqueue : q.taskQueue = s.pool.queue.taskQueue)
    (hp : callerHand p = callerHand (s.pool.submitters i)) :
    pipeline { s with pool := (s.pool.setQueue q).setSubmitter i p } = s.pipeline := by
  refine pipeline_congr ?_ (fun j => ?_) rfl rfl rfl
  · have htasks : ((s.pool.setQueue q).setSubmitter i p).queue.taskQueue =
        s.pool.queue.taskQueue := hqueue
    rw [pipe, pipe, htasks]
    rfl
  · have hset := congrFun (callerHand_setSubmitter (s.pool.setQueue q) i p) j
    refine hset.trans ?_
    rw [hp]
    exact congrFun (Function.update_eq_self i fun j => callerHand (s.pool.submitters j)) j

theorem pipeline_serve {pool : QueueSystem LogObj} (h : OneWorker s)
    (hserve : s.pool.ServeStep pool) :
    pipeline { s with pool := pool } = s.pipeline ∨
      PipelineStep s.pipeline (pipeline { s with pool := pool }) := by
  cases hserve with
  | @work i q p hi hwork =>
    obtain rfl : i = 0 := Nat.lt_one_iff.mp (Nat.lt_of_lt_of_le hi h.size)
    refine .inl (pipeline_congr ?_ (fun _ => rfl) rfl rfl rfl)
    have hidle : (∀ t p', s.pool.workers 0 ≠ .executing t p') → s.bodies 0 = .entering := h.idle
    generalize hphase : s.pool.workers 0 = phase at hwork hidle
    cases hwork with
    | pop hqueue => simp [pipe, QueueSystem.setWorker, QueueSystem.setQueue, hphase, hqueue,
        workerHand, AsyncQueue.pop]
    | call =>
      have hentering := hidle (by simp)
      simp [pipe, QueueSystem.setWorker, QueueSystem.setQueue, hphase, workerHand, hentering,
        AsyncQueue.call]
    | _ => simp [pipe, QueueSystem.setWorker, QueueSystem.setQueue, hphase, workerHand,
        AsyncQueue.lock, AsyncQueue.unlock]
  | @submit i p q p' hp hsubmit =>
    cases hsubmit with
    | lock hfree => exact .inl (pipeline_setSubmitter rfl (by rw [hp]; rfl))
    | @push task hrunning =>
      right
      have hhand : s.pipeline.hand i = some task := by
        simp [LogSystem.pipeline, hp, callerHand]
      have hput : pipeline { s with
          pool := (s.pool.setQueue (s.pool.queue.emplace task)).setSubmitter i
            (some .pushed) } =
          { s.pipeline with
            pipe := s.pipeline.pipe ++ [task]
            hand := Function.update s.pipeline.hand i none } := by
        have hset := callerHand_setSubmitter
          (s.pool.setQueue (s.pool.queue.emplace task)) i (some .pushed)
        have hpipe : pipe { s with
            pool := (s.pool.setQueue (s.pool.queue.emplace task)).setSubmitter i
              (some .pushed) } = s.pipe ++ [task] := by
          simp [pipe, QueueSystem.setSubmitter, QueueSystem.setQueue, AsyncQueue.emplace]
        rw [LogSystem.pipeline, hpipe, hset]
        rfl
      rw [hput]
      exact .put hhand
    | refuse hstopped =>
      rw [h.running] at hstopped
      cases hstopped
    | unlock => exact .inl (pipeline_setSubmitter rfl (by rw [hp]; rfl))
    | ret => exact .inl (pipeline_setSubmitter rfl (by rw [hp]; rfl))
  | @notify i workers hp hnotify =>
    left
    refine pipeline_congr ?_ (fun j => ?_) rfl rfl rfl
    · have hhand : workerHand (workers 0) (s.bodies 0) =
          workerHand (s.pool.workers 0) (s.bodies 0) := by
        rcases notified_executing hnotify 0 with hsame | ⟨hwaiting, hwoken⟩
        · rw [hsame]
        · rw [hwaiting, hwoken]
          rfl
      have hworkers : ((s.pool.setWorkers workers).setSubmitter i none).workers = workers := rfl
      rw [pipe, pipe, hworkers, hhand]
      rfl
    · have hset := congrFun (callerHand_setSubmitter (s.pool.setWorkers workers) i none) j
      refine hset.trans ?_
      have hnone : callerHand none = callerHand (s.pool.submitters i) := by
        rw [hp]
        rfl
      rw [hnone]
      exact congrFun (Function.update_eq_self i fun j => callerHand (s.pool.submitters j)) j

theorem pipeline_body (h : OneWorker s) (hbody : BodyStep s t) : t.pipeline = s.pipeline := by
  refine pipeline_congr ?_ (fun _ => ?_) ?_ ?_ ?_
  · cases hbody with
    | @lock i t hp hb hfree =>
      have hi := h.eq_zero (i := i) (by simp [hp])
      subst hi
      simp [pipe, setBody, LogSystem.lock, hp, hb, workerHand]
    | @emplace i t hp hb =>
      have hi := h.eq_zero (i := i) (by simp [hp])
      subst hi
      simp [pipe, setBody, hp, hb, workerHand]
    | @notify i hb =>
      have hi := h.body_eq_zero (i := i) (by simp [hb])
      subst hi
      have hrun : s.run.notified.hand = s.run.hand := by
        cases s.run <;> rfl
      have hhand : workerHand (s.pool.workers 0) .notified =
          workerHand (s.pool.workers 0) .emplaced := by
        cases s.pool.workers 0 <;> rfl
      simp [pipe, setBody, hb, hrun, hhand]
    | @finish i t hp hb =>
      have hi := h.eq_zero (i := i) (by simp [hp])
      subst hi
      simp [pipe, setBody, LogSystem.unlock, QueueSystem.setWorker, hp, hb, workerHand]
  all_goals cases hbody <;> rfl

theorem pipeline_run (hrun : RunStep s t) :
    t.pipeline = s.pipeline ∨ PipelineStep s.pipeline t.pipeline := by
  cases hrun with
  | @discard obj hp hlevel =>
    right
    have hpipe : s.pipeline.pipe = s.logger.written ++ obj :: (s.logger.logs ++
        workerHand (s.pool.workers 0) (s.bodies 0) ++
        s.pool.queue.taskQueue.map QueuedTask.task) := by
      simp [LogSystem.pipeline, pipe, hp, RunPhase.hand]
    have hdrop : pipeline { s with discarded := s.discarded ++ [obj], run := .done } =
        { s.pipeline with
          pipe := s.logger.written ++ (s.logger.logs ++
            workerHand (s.pool.workers 0) (s.bodies 0) ++
            s.pool.queue.taskQueue.map QueuedTask.task)
          dropped := s.pipeline.dropped ++ [obj] } := by
      simp [LogSystem.pipeline, pipe, RunPhase.hand]
    rw [hdrop]
    exact .drop hpipe
  | pop hp hlogs =>
    refine .inl (pipeline_congr ?_ (fun _ => rfl) rfl rfl rfl)
    simp [pipe, hp, hlogs, RunPhase.hand]
  | write hp hlevel =>
    refine .inl (pipeline_congr ?_ (fun _ => rfl) rfl rfl rfl)
    simp [pipe, hp, RunPhase.hand]
  | lock hp hfree =>
    refine .inl (pipeline_congr ?_ (fun _ => rfl) rfl rfl rfl)
    simp [pipe, LogSystem.lock, hp, RunPhase.hand]
  | relock hp hfree =>
    refine .inl (pipeline_congr ?_ (fun _ => rfl) rfl rfl rfl)
    simp [pipe, LogSystem.lock, hp, RunPhase.hand]
  | wait hp =>
    refine .inl (pipeline_congr ?_ (fun _ => rfl) rfl rfl rfl)
    simp [pipe, LogSystem.unlock, hp, RunPhase.hand]
  | unlock hp =>
    refine .inl (pipeline_congr ?_ (fun _ => rfl) rfl rfl rfl)
    simp [pipe, LogSystem.unlock, hp, RunPhase.hand]
  | testTrue hp hlogs =>
    refine .inl (pipeline_congr ?_ (fun _ => rfl) rfl rfl rfl)
    simp [pipe, hp, RunPhase.hand]
  | testFalse hp hlogs =>
    refine .inl (pipeline_congr ?_ (fun _ => rfl) rfl rfl rfl)
    simp [pipe, hp, RunPhase.hand]
  | wake hp =>
    refine .inl (pipeline_congr ?_ (fun _ => rfl) rfl rfl rfl)
    simp [pipe, hp, RunPhase.hand]

/-- With one worker every step is a step of the pipeline, or none. -/
theorem Step.pipeline (hstep : Step s t) (h : OneWorker s) :
    t.pipeline = s.pipeline ∨ PipelineStep s.pipeline t.pipeline := by
  cases hstep with
  | @log i level hp hlevel =>
    right
    have hhand : s.pipeline.hand i = none := by
      simp [LogSystem.pipeline, hp, callerHand]
    have hsend : pipeline (s.submit i (s.nextObj i level)) =
        { s.pipeline with
          hand := Function.update s.pipeline.hand i
            (some (s.nextObj i level))
          calls := Function.update s.pipeline.calls i (s.pipeline.calls i + 1)
          sent := s.pipeline.sent ++ [s.nextObj i level] } := by
      have hset := callerHand_setSubmitter s.pool i
        (some (.entering (s.nextObj i level)))
      rw [LogSystem.pipeline, submit, hset]
      rfl
    rw [hsend]
    exact Pipeline.Step.send (s.nextObj i level) hhand rfl
  | setLevel level => exact .inl rfl
  | serve hserve => exact pipeline_serve h hserve
  | body hbody => exact .inl (pipeline_body h hbody)
  | run hrun => exact pipeline_run hrun

/-! ## The order in the file -/

/-- Before a message stand in the file all those that its thread has logged earlier. -/
def InOrder (s : LogSystem) : Prop :=
  ∀ before obj after, s.logger.written = before ++ obj :: after →
    ∀ earlier ∈ s.logged, earlier.caller = obj.caller → earlier.number < obj.number →
      earlier ∈ before

/-- The level is not raised over a message that has been logged and not yet written. -/
def KeepsEnabled (s t : LogSystem) : Prop :=
  s.logger.level.toNat < t.logger.level.toNat →
    ∀ obj ∈ s.logged, obj ∉ s.logger.written → t.logger.level.toNat ≤ obj.level.toNat

/-- What holds with at most one worker and a level that is not raised over a message. -/
structure Orderly (s : LogSystem) : Prop where
  worker : s.OneWorker
  ordered : Pipeline.Ordered LogObj.caller LogObj.number s.pipeline
  enabled : ∀ obj ∈ s.logged, obj ∉ s.logger.written → s.logger.level.toNat ≤ obj.level.toNat
  kept : s.discarded = []

theorem Orderly.inOrder (h : s.Orderly) : s.InOrder := by
  intro before obj after hwritten earlier hlogged hcaller hnumber
  have hpipe : s.pipeline.pipe = before ++ obj :: (after ++ (s.run.hand ++ s.logger.logs ++
      workerHand (s.pool.workers 0) (s.bodies 0) ++
      s.pool.queue.taskQueue.map QueuedTask.task)) := by
    simp [LogSystem.pipeline, pipe, hwritten]
  rcases h.ordered.inOrder before obj _ hpipe earlier hlogged hcaller hnumber with
    hbefore | hdropped
  · exact hbefore
  · have hnone : earlier ∈ s.discarded := hdropped
    rw [h.kept] at hnone
    cases hnone

/-- The logger does not pass over the message that it has. -/
theorem Orderly.not_discarded {obj : LogObj} (h : s.Orderly) (hrun : s.run = .taken obj) :
    s.logger.level.toNat ≤ obj.level.toNat := by
  have hpipe : s.pipe = s.logger.written ++ obj :: (s.logger.logs ++
      workerHand (s.pool.workers 0) (s.bodies 0) ++
      s.pool.queue.taskQueue.map QueuedTask.task) := by
    simp [pipe, hrun, RunPhase.hand]
  have hlogged : obj ∈ s.logged := h.ordered.known.1 obj (by
    change obj ∈ s.pipe
    simp [hpipe])
  refine h.enabled obj hlogged fun hwritten => ?_
  have hpairwise : s.pipe.Pairwise (Pipeline.Before LogObj.caller LogObj.number) :=
    h.ordered.pairwise
  rw [hpipe, List.pairwise_append] at hpairwise
  exact Nat.lt_irrefl _ (hpairwise.2.2 obj hwritten obj List.mem_cons_self rfl)

theorem Orderly.step (h : s.Orderly) (hstep : Step s t) (hkeeps : s.KeepsEnabled t) :
    t.Orderly := by
  have hordered : Pipeline.Ordered LogObj.caller LogObj.number t.pipeline := by
    rcases hstep.pipeline h.worker with hsame | hpipeline
    · rw [hsame]
      exact h.ordered
    · exact hpipeline.ordered h.ordered
  have hworker := hstep.oneWorker h.worker
  cases hstep with
  | @log i level hp hlevel =>
    refine ⟨hworker, hordered, fun obj hobj hunwritten => ?_, h.kept⟩
    rcases List.mem_append.mp hobj with hold | hnew
    · exact h.enabled obj hold hunwritten
    · rw [List.mem_singleton.mp hnew]
      exact hlevel
  | setLevel level =>
    refine ⟨hworker, hordered, fun obj hobj hunwritten => ?_, h.kept⟩
    rcases Nat.lt_or_ge s.logger.level.toNat level.toNat with hraised | hlowered
    · exact hkeeps hraised obj hobj hunwritten
    · exact Nat.le_trans hlowered (h.enabled obj hobj hunwritten)
  | serve hserve => exact ⟨hworker, hordered, h.enabled, h.kept⟩
  | body hbody => cases hbody <;> exact ⟨hworker, hordered, h.enabled, h.kept⟩
  | run hrun =>
    cases hrun with
    | write hp hlevel =>
      refine ⟨hworker, hordered, fun obj hobj hunwritten => h.enabled obj hobj fun hold => ?_,
        h.kept⟩
      exact hunwritten (List.mem_append_left _ hold)
    | discard hp hlevel => exact absurd (h.not_discarded hp) (Nat.not_le_of_lt hlevel)
    | _ => exact ⟨hworker, hordered, h.enabled, h.kept⟩

theorem oneWorker_init {queueSize : ℕ} (h : queueSize ≤ 1) :
    OneWorker { pool := { queue := { queueSize := queueSize } } } where
  size := h
  running := rfl
  beyond _ _ := rfl
  idle _ := rfl
  body _ _ := rfl

theorem inOrder_of_le_one {queueSize : ℕ} (hsize : queueSize ≤ 1) {states : List LogSystem}
    (h : (queueLoggers queueSize).Run states)
    (hkeeps : ∀ s t, [t, s] <:+: states → KeepsEnabled s t) : ∀ s ∈ states, s.InOrder := by
  have horderly : ∀ s ∈ states, s.Orderly := by
    refine h.invariant_along (fun s hinit => ?_) (fun s t hs hstep => hs.step hstep) hkeeps
    obtain rfl : s = _ := hinit
    exact ⟨oneWorker_init hsize, Pipeline.ordered_empty, by simp, rfl⟩
  exact fun s hs => (horderly s hs).inOrder

/-! ## Messages out of order -/

theorem leads_same {queueSize : ℕ} (h : (queueLoggers queueSize).Leads KeepsEnabled s)
    (hstep : Step s t) (hlevel : t.logger.level = s.logger.level) :
    (queueLoggers queueSize).Leads KeepsEnabled t :=
  h.next hstep fun hraised => absurd hraised (by simp [hlevel])

/-- Two messages of one thread are taken by two workers, and the second is faster. -/
theorem exists_not_inOrder {queueSize : ℕ} (hsize : 2 ≤ queueSize) :
    ∃ s, (queueLoggers queueSize).Leads KeepsEnabled s ∧ ¬s.InOrder := by
  have hstart : (queueLoggers queueSize).Leads KeepsEnabled
      { pool := { queue := { queueSize := queueSize } } } := .start rfl
  have hfirst : 0 < queueSize := Nat.lt_of_lt_of_le Nat.two_pos hsize
  -- one thread logs twice
  have hlog := leads_same hstart (.log (i := 0) .INFO rfl (Nat.le_refl 2)) rfl
  have hlocked := leads_same hlog (.serve (.submit (i := 0) rfl (.lock rfl))) rfl
  have hpushed := leads_same hlocked (.serve (.submit (i := 0) rfl (.push rfl))) rfl
  have hunlocked := leads_same hpushed (.serve (.submit (i := 0) rfl .unlock)) rfl
  have hnotified := leads_same hunlocked (.serve (.notify (i := 0) rfl
    (.nobody (fun _ hwaiting => by cases hwaiting) rfl))) rfl
  have hlog' := leads_same hnotified (.log (i := 0) .INFO rfl (Nat.le_refl 2)) rfl
  have hlocked' := leads_same hlog' (.serve (.submit (i := 0) rfl (.lock rfl))) rfl
  have hpushed' := leads_same hlocked' (.serve (.submit (i := 0) rfl (.push rfl))) rfl
  have hunlocked' := leads_same hpushed' (.serve (.submit (i := 0) rfl .unlock)) rfl
  have hnotified' := leads_same hunlocked' (.serve (.notify (i := 0) rfl
    (.nobody (fun _ hwaiting => by cases hwaiting) rfl))) rfl
  -- each worker takes one of the messages
  have hwork := leads_same hnotified' (.serve (.work (i := 0) hfirst (.lock rfl))) rfl
  have htested := leads_same hwork (.serve (.work (i := 0) hfirst
    (.testTrue (.inr (List.cons_ne_nil _ _))))) rfl
  have hpopped := leads_same htested (.serve (.work (i := 0) hfirst (.pop rfl))) rfl
  have hfree := leads_same hpopped (.serve (.work (i := 0) hfirst .unlock)) rfl
  have hcalled := leads_same hfree (.serve (.work (i := 0) hfirst .call)) rfl
  have hwork' := leads_same hcalled (.serve (.work (i := 1) hsize (.lock rfl))) rfl
  have htested' := leads_same hwork' (.serve (.work (i := 1) hsize
    (.testTrue (.inr (List.cons_ne_nil _ _))))) rfl
  have hpopped' := leads_same htested' (.serve (.work (i := 1) hsize (.pop rfl))) rfl
  have hfree' := leads_same hpopped' (.serve (.work (i := 1) hsize .unlock)) rfl
  have hcalled' := leads_same hfree' (.serve (.work (i := 1) hsize .call)) rfl
  -- the second message reaches the queue of the logger, and the file
  have hbody := leads_same hcalled' (.body (.lock (i := 1) rfl rfl rfl)) rfl
  have hemplaced := leads_same hbody (.body (.emplace (i := 1) rfl rfl)) rfl
  have hwoken := leads_same hemplaced (.body (.notify (i := 1) rfl)) rfl
  have hfinished := leads_same hwoken (.body (.finish (i := 1) rfl rfl)) rfl
  have hrun := leads_same hfinished (.run (.lock rfl rfl)) rfl
  have htrue := leads_same hrun (.run (.testTrue rfl (List.cons_ne_nil _ _))) rfl
  have htaken := leads_same htrue (.run (.pop rfl rfl)) rfl
  have hwritten := leads_same htaken (.run (.write rfl (Nat.le_refl 2))) rfl
  refine ⟨_, hwritten, fun hinOrder => ?_⟩
  cases hinOrder [] _ [] rfl _ List.mem_cons_self rfl Nat.zero_lt_one

/-- With one worker, the level is raised over the first of two messages. -/
theorem exists_discarded : ∃ past, ∃ s, (queueLoggers 1).Run (s :: past) ∧ ¬s.InOrder := by
  have hstart : (queueLoggers 1).Run [{ pool := { queue := { queueSize := 1 } } }] := .start rfl
  have hlog := hstart.next (Step.log (i := 0) .INFO rfl (by decide))
  have hlocked := hlog.next (Step.serve (.submit (i := 0) rfl (.lock rfl)))
  have hpushed := hlocked.next (Step.serve (.submit (i := 0) rfl (.push rfl)))
  have hunlocked := hpushed.next (Step.serve (.submit (i := 0) rfl .unlock))
  have hnotified := hunlocked.next (Step.serve (.notify (i := 0) rfl
    (.nobody (fun _ hwaiting => by cases hwaiting) rfl)))
  have hlog' := hnotified.next (Step.log (i := 0) .ERROR rfl (by decide))
  have hlocked' := hlog'.next (Step.serve (.submit (i := 0) rfl (.lock rfl)))
  have hpushed' := hlocked'.next (Step.serve (.submit (i := 0) rfl (.push rfl)))
  have hraised := hpushed'.next (Step.setLevel .WARNING)
  have hunlocked' := hraised.next (Step.serve (.submit (i := 0) rfl .unlock))
  -- the first message comes to the logger, and is passed over
  have hwork := hunlocked'.next (Step.serve (.work (i := 0) Nat.one_pos (.lock rfl)))
  have htested := hwork.next (Step.serve (.work (i := 0) Nat.one_pos
    (.testTrue (.inr (List.cons_ne_nil _ _)))))
  have hpopped := htested.next (Step.serve (.work (i := 0) Nat.one_pos (.pop rfl)))
  have hfree := hpopped.next (Step.serve (.work (i := 0) Nat.one_pos .unlock))
  have hcalled := hfree.next (Step.serve (.work (i := 0) Nat.one_pos .call))
  have hbody := hcalled.next (Step.body (.lock (i := 0) rfl rfl rfl))
  have hemplaced := hbody.next (Step.body (.emplace (i := 0) rfl rfl))
  have hwoken := hemplaced.next (Step.body (.notify (i := 0) rfl))
  have hfinished := hwoken.next (Step.body (.finish (i := 0) rfl rfl))
  have hrun := hfinished.next (Step.run (.lock rfl rfl))
  have htrue := hrun.next (Step.run (.testTrue rfl (List.cons_ne_nil _ _)))
  have htaken := htrue.next (Step.run (.pop rfl rfl))
  have hdiscarded := htaken.next (Step.run (.discard rfl (by decide)))
  have hdone := hdiscarded.next (Step.run (.unlock rfl))
  -- the second message is written
  have hwork' := hdone.next (Step.serve (.work (i := 0) Nat.one_pos (.lock rfl)))
  have htested' := hwork'.next (Step.serve (.work (i := 0) Nat.one_pos
    (.testTrue (.inr (List.cons_ne_nil _ _)))))
  have hpopped' := htested'.next (Step.serve (.work (i := 0) Nat.one_pos (.pop rfl)))
  have hfree' := hpopped'.next (Step.serve (.work (i := 0) Nat.one_pos .unlock))
  have hcalled' := hfree'.next (Step.serve (.work (i := 0) Nat.one_pos .call))
  have hbody' := hcalled'.next (Step.body (.lock (i := 0) rfl rfl rfl))
  have hemplaced' := hbody'.next (Step.body (.emplace (i := 0) rfl rfl))
  have hwoken' := hemplaced'.next (Step.body (.notify (i := 0) rfl))
  have hfinished' := hwoken'.next (Step.body (.finish (i := 0) rfl rfl))
  have hrun' := hfinished'.next (Step.run (.lock rfl rfl))
  have htrue' := hrun'.next (Step.run (.testTrue rfl (List.cons_ne_nil _ _)))
  have htaken' := htrue'.next (Step.run (.pop rfl rfl))
  have hwritten := htaken'.next (Step.run (.write rfl (by decide)))
  refine ⟨_, _, hwritten, fun hinOrder => ?_⟩
  cases hinOrder [] _ [] rfl _ List.mem_cons_self rfl Nat.zero_lt_one

end LogSystem

open LogSystem

/-- The order is kept in every run in which the level is not raised over a message, exactly if the
shared queue has at most one worker. -/
theorem messages_in_order_iff (queueSize : ℕ) :
    (∀ states, (queueLoggers queueSize).Run states →
      (∀ s t, [t, s] <:+: states → KeepsEnabled s t) → ∀ s ∈ states, s.InOrder) ↔
    queueSize ≤ 1 := by
  refine ⟨fun h => ?_, fun hsize states hrun => inOrder_of_le_one hsize hrun⟩
  by_contra hlarge
  obtain ⟨s, ⟨past, hrun, hkeeps⟩, hnot⟩ := exists_not_inOrder (Nat.lt_of_not_le hlarge)
  exact hnot (h _ hrun hkeeps s List.mem_cons_self)

/-- With two workers a thread's second message may be the first in the file, and with one the only
one. -/
theorem second_message_first :
    (¬∀ states, (queueLoggers 2).Run states → ∀ s ∈ states, s.InOrder) ∧
      ¬∀ states, (queueLoggers 1).Run states → ∀ s ∈ states, s.InOrder := by
  constructor
  · intro h
    obtain ⟨s, ⟨past, hrun, -⟩, hnot⟩ := exists_not_inOrder (Nat.le_refl 2)
    exact hnot (h _ hrun s List.mem_cons_self)
  · intro h
    obtain ⟨past, s, hrun, hnot⟩ := exists_discarded
    exact hnot (h _ hrun s List.mem_cons_self)

end DarwinCore.Log
