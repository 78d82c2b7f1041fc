/-
Proof jobs (`Job` and `recover_jobs_from_disk` of `server/main.py`).

A job is a thread that runs the prover again and again until it is stopped, and a
manifest on disk from which the job is started again after a restart.  `stop` runs
in another thread.  Both write the manifest and neither holds a lock, so they are
modelled as steps of one state that interleave: the position of each thread is in
the state, and a step is one statement that the other thread can see.  Processes
exit by themselves, with any code.

A write of the manifest is one step.  An exception is what happens when no process
can be spawned.
-/
import Mathlib.Algebra.GroupWithZero.Nat
import Mathlib.Data.List.Basic

namespace CenoReth
namespace Server

inductive Status where
  | pending
  | running
  | waiting
  | error
  | stopped
  deriving DecidableEq

/-- What `job.json` says, as far as it changes. -/
structure Manifest where
  status : Status
  iterations : Nat
  lastExitCode : Option Int
  lastError : Option String
  deriving DecidableEq

/-- The default of `RECOVER_JOB_STATUSES`. -/
def recoverJobStatuses : List Status := [.pending, .running, .error, .waiting]

/-- Whether `recover_jobs_from_disk` starts the job of a manifest. -/
def recovers (manifest : Manifest) : Bool := manifest.status ∈ recoverJobStatuses

/-- A process that was spawned. -/
inductive Process where
  | running
  | exited (code : Int)
  deriving DecidableEq

/-- Where `_run_loop` is.  Processes are numbered in the order of their spawning. -/
inductive LoopPosition where
  /-- `while not self.stop_event.is_set()` -/
  | check
  /-- `subprocess.Popen(..)` and `self.current_proc = proc` -/
  | spawn
  /-- `self._persist_status("running")` -/
  | persistRunning (proc : Nat)
  /-- `proc.wait()` -/
  | waitExit (proc : Nat)
  /-- `self._persist_status("waiting" if exit_code == 0 else "error")` -/
  | persistExit (code : Int)
  /-- `self._persist_status("error")`, after an exception -/
  | persistFailure
  /-- `self.current_proc = None` -/
  | clear
  /-- `self.stop_event.wait(timeout=retry_delay)` -/
  | waitStop
  | ended
  deriving DecidableEq

/-- Where `stop` is. -/
inductive StopPosition where
  /-- It was not called. -/
  | idle
  /-- `proc = self.current_proc`, and `proc.terminate()` if it runs -/
  | terminate
  /-- `proc.wait(timeout=10)`, and `proc.kill()` after it -/
  | wait (proc : Nat)
  /-- `self._persist_status("stopped")` -/
  | persist
  | returned
  deriving DecidableEq

structure Job where
  stopEvent : Bool
  currentProc : Option Nat
  iteration : Nat
  lastExitCode : Option Int
  lastError : Option String
  status : Status
  manifest : Manifest
  processes : List Process
  loop : LoopPosition
  stop : StopPosition
  deriving DecidableEq

namespace Job

/-- `_persist_status`. -/
def persistStatus (status : Status) (job : Job) : Job :=
  { job with
    status := status
    manifest :=
      { status := status
        iterations := job.iteration
        lastExitCode := job.lastExitCode
        lastError := job.lastError } }

/-- `Job.__init__`, which reads the manifest if there is one. -/
def init (manifest : Option Manifest) : Job where
  stopEvent := false
  currentProc := none
  iteration := manifest.elim 0 Manifest.iterations
  lastExitCode := manifest.bind Manifest.lastExitCode
  lastError := manifest.bind Manifest.lastError
  status := manifest.elim .pending Manifest.status
  manifest := manifest.getD ⟨.pending, 0, none, none⟩
  processes := []
  loop := .ended
  stop := .idle

/-- `start`, on a job whose thread does not run. -/
def start (job : Job) : Job :=
  { persistStatus .pending { job with stopEvent := false } with loop := .check }

/-! ## Steps -/

inductive Action where
  /-- A process exits. -/
  | exit (proc : Nat) (code : Int)
  | check
  | spawn
  /-- The process cannot be spawned. -/
  | spawnFails (error : String)
  | persistRunning
  /-- `proc.wait()` returns in the loop. -/
  | waited
  | persistExit
  | persistFailure
  | clear
  /-- `stop_event.wait` returns: the event is set, or the delay is over. -/
  | waitStop
  /-- `stop` is called: `self.stop_event.set()`. -/
  | stopSet
  | stopTerminate
  /-- `proc.wait` returns in `stop`. -/
  | stopWaited
  /-- The process did not exit in time and is killed, without a further wait. -/
  | stopKill
  | stopPersist
  deriving DecidableEq

/-- The process is running. -/
def runs (job : Job) (proc : Nat) : Bool := job.processes[proc]? = some .running

def step (job : Job) : Action → Option Job
  | .exit proc code =>
    if job.runs proc then some { job with processes := job.processes.set proc (.exited code) }
    else none
  | .check =>
    match job.loop with
    | .check => some { job with loop := if job.stopEvent then .ended else .spawn }
    | _ => none
  | .spawn =>
    match job.loop with
    | .spawn => some { job with
        processes := job.processes ++ [.running]
        currentProc := some job.processes.length
        loop := .persistRunning job.processes.length }
    | _ => none
  | .spawnFails error =>
    match job.loop with
    | .spawn => some { job with lastError := some error, loop := .persistFailure }
    | _ => none
  | .persistRunning =>
    match job.loop with
    | .persistRunning proc => some { persistStatus .running job with loop := .waitExit proc }
    | _ => none
  | .waited =>
    match job.loop with
    | .waitExit proc =>
      match job.processes[proc]? with
      | some (.exited code) => some { job with
          lastExitCode := some code
          iteration := job.iteration + 1
          loop := .persistExit code }
      | _ => none
    | _ => none
  | .persistExit =>
    match job.loop with
    | .persistExit code =>
      some { persistStatus (if code = 0 then .waiting else .error) job with loop := .clear }
    | _ => none
  | .persistFailure =>
    match job.loop with
    | .persistFailure => some { persistStatus .error job with loop := .clear }
    | _ => none
  | .clear =>
    match job.loop with
    | .clear => some { job with currentProc := none, loop := .waitStop }
    | _ => none
  | .waitStop =>
    match job.loop with
    | .waitStop => some { job with loop := if job.stopEvent then .ended else .check }
    | _ => none
  | .stopSet =>
    match job.stop with
    | .idle => some { job with stopEvent := true, stop := .terminate }
    | _ => none
  | .stopTerminate =>
    match job.stop, job.currentProc with
    | .terminate, some proc =>
      some { job with stop := if job.runs proc then .wait proc else .persist }
    | .terminate, none => some { job with stop := .persist }
    | _, _ => none
  | .stopWaited =>
    match job.stop with
    | .wait proc => if job.runs proc then none else some { job with stop := .persist }
    | _ => none
  | .stopKill =>
    match job.stop with
    | .wait _ => some { job with stop := .persist }
    | _ => none
  | .stopPersist =>
    match job.stop with
    | .persist => some { persistStatus .stopped job with stop := .returned }
    | _ => none

/-- The steps of a list, in order. -/
def run (job : Job) : List Action → Option Job
  | [] => some job
  | action :: actions => (job.step action).bind fun job => job.run actions

/-- `stop` has returned and the loop has ended. -/
structure Done (job : Job) : Prop where
  stop : job.stop = .returned
  loop : job.loop = .ended

/-- The job is stopped for good: on disk and in its processes. -/
structure Stopped (job : Job) : Prop where
  status : job.manifest.status = .stopped
  processes : ∀ proc, job.runs proc = false
  recovers : Server.recovers job.manifest = false

/-- The loop has passed its check of the event, and has not yet written the result of this
iteration. -/
def midIteration : LoopPosition → Bool
  | .spawn => true
  | .persistRunning _ => true
  | .waitExit _ => true
  | .persistExit _ => true
  | .persistFailure => true
  | _ => false

/-- Whenever `stop` writes the manifest, the loop is not in the middle of an iteration. -/
def StopsBetween (job : Job) (actions : List Action) : Prop :=
  ∀ before after job', actions = before ++ .stopPersist :: after → job.run before = some job' →
    midIteration job'.loop = false

/-! ## What a step does -/

theorem run_append {job : Job} {before after : List Action} :
    job.run (before ++ after) = (job.run before).bind fun job => job.run after := by
  induction before generalizing job with
  | nil => rfl
  | cons action before ih =>
    rw [List.cons_append, run, run]
    cases job.step action with
    | none => rfl
    | some job' => exact ih

/-- The steps, one by one. -/
inductive Step (job : Job) : Action → Job → Prop where
  | exit {proc : Nat} (code : Int) (hr : job.runs proc = true) :
    Step job (.exit proc code) { job with processes := job.processes.set proc (.exited code) }
  | leave (hl : job.loop = .check) (he : job.stopEvent = true) :
    Step job .check { job with loop := .ended }
  | enter (hl : job.loop = .check) (he : job.stopEvent = false) :
    Step job .check { job with loop := .spawn }
  | spawn (hl : job.loop = .spawn) :
    Step job .spawn { job with
      processes := job.processes ++ [.running]
      currentProc := some job.processes.length
      loop := .persistRunning job.processes.length }
  | spawnFails (error : String) (hl : job.loop = .spawn) :
    Step job (.spawnFails error) { job with lastError := some error, loop := .persistFailure }
  | persistRunning {proc : Nat} (hl : job.loop = .persistRunning proc) :
    Step job .persistRunning { persistStatus .running job with loop := .waitExit proc }
  | waited {proc : Nat} {code : Int} (hl : job.loop = .waitExit proc)
    (hp : job.processes[proc]? = some (.exited code)) :
    Step job .waited { job with
      lastExitCode := some code
      iteration := job.iteration + 1
      loop := .persistExit code }
  | persistExit {code : Int} (hl : job.loop = .persistExit code) :
    Step job .persistExit
      { persistStatus (if code = 0 then .waiting else .error) job with loop := .clear }
  | persistFailure (hl : job.loop = .persistFailure) :
    Step job .persistFailure { persistStatus .error job with loop := .clear }
  | clear (hl : job.loop = .clear) :
    Step job .clear { job with currentProc := none, loop := .waitStop }
  | wake (hl : job.loop = .waitStop) (he : job.stopEvent = true) :
    Step job .waitStop { job with loop := .ended }
  | retry (hl : job.loop = .waitStop) (he : job.stopEvent = false) :
    Step job .waitStop { job with loop := .check }
  | stopSet (hs : job.stop = .idle) :
    Step job .stopSet { job with stopEvent := true, stop := .terminate }
  | stopTerminate {proc : Nat} (hs : job.stop = .terminate) :
    Step job .stopTerminate { job with stop := .wait proc }
  | stopIdle (hs : job.stop = .terminate) : Step job .stopTerminate { job with stop := .persist }
  | stopWaited {proc : Nat} (hs : job.stop = .wait proc) :
    Step job .stopWaited { job with stop := .persist }
  | stopKill {proc : Nat} (hs : job.stop = .wait proc) :
    Step job .stopKill { job with stop := .persist }
  | stopPersist (hs : job.stop = .persist) :
    Step job .stopPersist { persistStatus .stopped job with stop := .returned }

theorem step_cases {job job' : Job} {action : Action} (h : job.step action = some job') :
    Step job action job' := by
  cases action with
  | exit proc code =>
    simp only [step] at h
    split at h
    · rename_i hr
      obtain rfl := Option.some.inj h
      exact .exit code hr
    · cases h
  | check =>
    simp only [step] at h
    split at h
    · rename_i hl
      obtain rfl := Option.some.inj h
      by_cases he : job.stopEvent = true
      · rw [if_pos he]
        exact .leave hl he
      · rw [if_neg he]
        exact .enter hl (by simpa using he)
    · cases h
  | waited =>
    simp only [step] at h
    split at h
    · rename_i proc hl
      split at h
      · rename_i code hp
        obtain rfl := Option.some.inj h
        exact .waited hl hp
      · cases h
    · cases h
  | waitStop =>
    simp only [step] at h
    split at h
    · rename_i hl
      obtain rfl := Option.some.inj h
      by_cases he : job.stopEvent = true
      · rw [if_pos he]
        exact .wake hl he
      · rw [if_neg he]
        exact .retry hl (by simpa using he)
    · cases h
  | stopTerminate =>
    simp only [step] at h
    split at h
    · rename_i proc hs _
      obtain rfl := Option.some.inj h
      cases hr : job.runs proc with
      | true => exact .stopTerminate hs
      | false => exact .stopIdle hs
    · rename_i hs _
      obtain rfl := Option.some.inj h
      exact .stopIdle hs
    · cases h
  | stopWaited =>
    simp only [step] at h
    split at h
    · rename_i proc hs
      split at h
      · cases h
      · obtain rfl := Option.some.inj h
        exact .stopWaited hs
    · cases h
  | _ =>
    -- the position decides, and there is one outcome
    simp only [step] at h
    split at h
    · rename_i hl
      obtain rfl := Option.some.inj h
      constructor <;> assumption
    · cases h

/-- What a step other than the last one of `stop` may write into the manifest, and where the loop
may go. -/
structure Moves (job job' : Job) : Prop where
  event : job.stopEvent = true → job'.stopEvent = true
  manifest : job'.manifest = job.manifest ∨
    (midIteration job.loop = true ∧ job'.manifest.status ≠ .stopped)
  mid : midIteration job.loop = true →
    midIteration job'.loop = true ∨ job'.manifest.status ≠ .stopped
  between : midIteration job.loop = false → job.stopEvent = true → midIteration job'.loop = false

/-- A step of `stop` does not move the loop. -/
theorem Moves.of_stop {job job' : Job} (he : job.stopEvent = true → job'.stopEvent = true)
    (hl : job'.loop = job.loop) (hm : job'.manifest = job.manifest) : Moves job job' where
  event := he
  manifest := .inl hm
  mid h := .inl (by rw [hl]; exact h)
  between h _ := by rw [hl]; exact h

theorem Step.moves {job job' : Job} {action : Action} (ha : action ≠ .stopPersist)
    (h : Step job action job') : Moves job job' := by
  cases h with
  | exit code hr => exact .of_stop (fun h => h) rfl rfl
  | leave hl he =>
    exact ⟨fun h => h, .inl rfl, fun h => by simp [hl, midIteration] at h, fun _ _ => rfl⟩
  | enter hl he =>
    refine ⟨fun h => h, .inl rfl, fun _ => .inl rfl, fun _ h => ?_⟩
    rw [he] at h
    cases h
  | spawn hl =>
    exact ⟨fun h => h, .inl rfl, fun _ => .inl rfl, fun h => by simp [hl, midIteration] at h⟩
  | spawnFails error hl =>
    exact ⟨fun h => h, .inl rfl, fun _ => .inl rfl, fun h => by simp [hl, midIteration] at h⟩
  | persistRunning hl =>
    refine ⟨fun h => h, .inr ⟨by rw [hl]; rfl, ?_⟩, fun _ => .inl rfl, fun h => ?_⟩
    · simp [persistStatus]
    · simp [hl, midIteration] at h
  | waited hl hp =>
    exact ⟨fun h => h, .inl rfl, fun _ => .inl rfl, fun h => by simp [hl, midIteration] at h⟩
  | @persistExit code hl =>
    have hne : (if code = 0 then Status.waiting else .error) ≠ .stopped := by
      split <;> simp
    exact ⟨fun h => h, .inr ⟨by rw [hl]; rfl, hne⟩, fun _ => .inr hne, fun _ _ => rfl⟩
  | persistFailure hl =>
    have hne : Status.error ≠ .stopped := by simp
    exact ⟨fun h => h, .inr ⟨by rw [hl]; rfl, hne⟩, fun _ => .inr hne, fun _ _ => rfl⟩
  | clear hl =>
    exact ⟨fun h => h, .inl rfl, fun h => by simp [hl, midIteration] at h, fun _ _ => rfl⟩
  | wake hl he =>
    exact ⟨fun h => h, .inl rfl, fun h => by simp [hl, midIteration] at h, fun _ _ => rfl⟩
  | retry hl he =>
    exact ⟨fun h => h, .inl rfl, fun h => by simp [hl, midIteration] at h, fun _ _ => rfl⟩
  | stopSet hs => exact .of_stop (fun _ => rfl) rfl rfl
  | stopTerminate hs => exact .of_stop (fun h => h) rfl rfl
  | stopIdle hs => exact .of_stop (fun h => h) rfl rfl
  | stopWaited hs => exact .of_stop (fun h => h) rfl rfl
  | stopKill hs => exact .of_stop (fun h => h) rfl rfl
  | stopPersist hs => exact absurd rfl ha

/-- Once `stop` has returned, it takes no step. -/
theorem Step.returned {job job' : Job} {action : Action} (hr : job.stop = .returned)
    (h : Step job action job') : action ≠ .stopPersist ∧ job'.stop = .returned := by
  cases h with
  | stopSet hs => simp [hr] at hs
  | stopTerminate hs => simp [hr] at hs
  | stopIdle hs => simp [hr] at hs
  | stopWaited hs => simp [hr] at hs
  | stopKill hs => simp [hr] at hs
  | stopPersist hs => simp [hr] at hs
  | _ => exact ⟨by simp, hr⟩

/-! ## Runs -/

/-- What holds throughout: a call of `stop` has set the event, and a process runs only while the
loop is with it. -/
structure Inv (job : Job) : Prop where
  event : job.stop ≠ .idle → job.stopEvent = true
  processes : ∀ proc, job.runs proc = true →
    job.loop = .persistRunning proc ∨ job.loop = .waitExit proc

theorem inv_start (manifest : Option Manifest) : Inv (start (init manifest)) where
  event h := absurd rfl h
  processes proc h := by simp [runs, start, init, persistStatus] at h

/-- A step of the loop that leaves the processes alone starts where none runs. -/
theorem Inv.move {job : Job} (h : Inv job) {loop : LoopPosition} {job' : Job}
    (hl : job.loop = loop) (h₁ : ∀ proc, loop ≠ .persistRunning proc)
    (h₂ : ∀ proc, loop ≠ .waitExit proc) (hs : job'.stop = job.stop)
    (he : job'.stopEvent = job.stopEvent) (hp : job'.processes = job.processes) : Inv job' where
  event hne := by
    rw [hs] at hne
    rw [he]
    exact h.event hne
  processes proc hr := by
    have hr' : job.runs proc = true := by
      rw [runs, hp] at hr
      exact hr
    rcases h.processes proc hr' with hpos | hpos
    · exact absurd (hl.symm.trans hpos) (h₁ proc)
    · exact absurd (hl.symm.trans hpos) (h₂ proc)

theorem Step.inv {job job' : Job} {action : Action} (h : Step job action job') (hi : Inv job) :
    Inv job' := by
  cases h with
  | @exit proc code hr =>
    refine ⟨hi.event, fun k hk => hi.processes k ?_⟩
    have hne : k ≠ proc := by
      rintro rfl
      simp only [runs, decide_eq_true_eq] at hk hr
      obtain ⟨hlt, -⟩ := List.getElem?_eq_some_iff.mp hr
      rw [List.getElem?_set_self hlt] at hk
      simp at hk
    simpa [runs, List.getElem?_set_ne (Ne.symm hne)] using hk
  | spawn hl =>
    refine ⟨hi.event, fun k hk => .inl ?_⟩
    simp only [runs, decide_eq_true_eq] at hk
    rcases Nat.lt_or_ge k job.processes.length with hlt | hge
    · -- no process was running before
      rw [List.getElem?_append_left hlt] at hk
      rcases hi.processes k (by simpa [runs] using hk) with hpos | hpos <;> simp [hl] at hpos
    · rw [List.getElem?_append_right hge] at hk
      have hlt := (List.getElem?_eq_some_iff.mp hk).1
      rw [List.length_singleton] at hlt
      have hkl : k = job.processes.length := by omega
      rw [hkl]
  | persistRunning hl =>
    refine ⟨hi.event, fun k hk => .inr ?_⟩
    rcases hi.processes k hk with hpos | hpos
    · rw [LoopPosition.persistRunning.inj (hl.symm.trans hpos)]
    · simp [hl] at hpos
  | @waited proc code hl hp =>
    refine ⟨hi.event, fun k hk => ?_⟩
    have hk' : job.runs k = true := hk
    rcases hi.processes k hk' with hpos | hpos
    · simp [hl] at hpos
    · obtain rfl := LoopPosition.waitExit.inj (hl.symm.trans hpos)
      simp [runs, hp] at hk'
  | leave hl he => exact hi.move hl (by simp) (by simp) rfl rfl rfl
  | enter hl he => exact hi.move hl (by simp) (by simp) rfl rfl rfl
  | spawnFails error hl => exact hi.move hl (by simp) (by simp) rfl rfl rfl
  | persistExit hl => exact hi.move hl (by simp) (by simp) rfl rfl rfl
  | persistFailure hl => exact hi.move hl (by simp) (by simp) rfl rfl rfl
  | clear hl => exact hi.move hl (by simp) (by simp) rfl rfl rfl
  | wake hl he => exact hi.move hl (by simp) (by simp) rfl rfl rfl
  | retry hl he => exact hi.move hl (by simp) (by simp) rfl rfl rfl
  | stopSet hs => exact ⟨fun _ => rfl, hi.processes⟩
  | stopTerminate hs => exact ⟨fun _ => hi.event (by simp [hs]), hi.processes⟩
  | stopIdle hs => exact ⟨fun _ => hi.event (by simp [hs]), hi.processes⟩
  | stopWaited hs => exact ⟨fun _ => hi.event (by simp [hs]), hi.processes⟩
  | stopKill hs => exact ⟨fun _ => hi.event (by simp [hs]), hi.processes⟩
  | stopPersist hs => exact ⟨fun _ => hi.event (by simp [hs]), hi.processes⟩

/-- What every step keeps, a run keeps. -/
theorem run_keeps {P : Job → Prop}
    (hstep : ∀ {job job' : Job} {action : Action}, P job → Step job action job' → P job') :
    ∀ {actions : List Action} {job job' : Job}, P job → job.run actions = some job' → P job'
  | [], job, job', hp, h => by
    obtain rfl := Option.some.inj h
    exact hp
  | action :: actions, job, job', hp, h => by
    obtain ⟨job₁, h₁, h₂⟩ := Option.bind_eq_some_iff.mp h
    exact run_keeps hstep (hstep hp (step_cases h₁)) h₂

theorem inv_run {actions : List Action} {job job' : Job} (hi : Inv job)
    (h : job.run actions = some job') : Inv job' :=
  run_keeps (fun hi hs => hs.inv hi) hi h

/-- `stop` has returned between two iterations: its write is the last one. -/
structure Settled (job : Job) : Prop where
  stop : job.stop = .returned
  event : job.stopEvent = true
  status : job.manifest.status = .stopped
  between : midIteration job.loop = false

theorem Step.settled {job job' : Job} {action : Action} (hset : Settled job)
    (h : Step job action job') : Settled job' := by
  obtain ⟨ha, hr⟩ := h.returned hset.stop
  have hm := h.moves ha
  refine ⟨hr, hm.event hset.event, ?_, hm.between hset.between hset.event⟩
  rcases hm.manifest with heq | ⟨hmid, -⟩
  · rw [heq, hset.status]
  · rw [hset.between] at hmid
    cases hmid

/-- `stop` has returned in the middle of an iteration: the loop writes after it. -/
structure Overtaken (job : Job) : Prop where
  stop : job.stop = .returned
  written : midIteration job.loop = true ∨ job.manifest.status ≠ .stopped

theorem Step.overtaken {job job' : Job} {action : Action} (hov : Overtaken job)
    (h : Step job action job') : Overtaken job' := by
  obtain ⟨ha, hr⟩ := h.returned hov.stop
  have hm := h.moves ha
  refine ⟨hr, ?_⟩
  rcases hov.written with hmid | hne
  · exact hm.mid hmid
  · rcases hm.manifest with heq | ⟨-, hne'⟩
    · exact .inr (by rw [heq]; exact hne)
    · exact .inr hne'

/-- A run after which `stop` has returned contains its last step. -/
theorem exists_stopPersist :
    ∀ {actions : List Action} {job job' : Job}, job.stop ≠ .returned → job'.stop = .returned →
      job.run actions = some job' → ∃ before after, actions = before ++ .stopPersist :: after
  | [], job, job', hne, hr, h => by
    obtain rfl := Option.some.inj h
    exact absurd hr hne
  | action :: actions, job, job', hne, hr, h => by
    obtain ⟨job₁, h₁, h₂⟩ := Option.bind_eq_some_iff.mp h
    by_cases ha : action = .stopPersist
    · exact ⟨[], actions, by rw [ha]; rfl⟩
    · have hne₁ : job₁.stop ≠ .returned := by
        cases step_cases h₁ with
        | stopPersist hs => exact absurd rfl ha
        | stopSet hs => simp
        | stopTerminate hs => simp
        | stopIdle hs => simp
        | stopWaited hs => simp
        | stopKill hs => simp
        | _ => exact hne
      obtain ⟨before, after, rfl⟩ := exists_stopPersist hne₁ hr h₂
      exact ⟨action :: before, after, rfl⟩

/-- The run around the last step of `stop`. -/
theorem run_around {job job' : Job} {before after : List Action}
    (h : job.run (before ++ .stopPersist :: after) = some job') :
    ∃ job₁ job₂ : Job, job.run before = some job₁ ∧ job₁.stop = .persist ∧ job₂.stop = .returned ∧
      job₂.stopEvent = job₁.stopEvent ∧ job₂.loop = job₁.loop ∧
      job₂.manifest.status = .stopped ∧ job₂.run after = some job' := by
  rw [run_append] at h
  obtain ⟨job₁, h₁, h₂⟩ := Option.bind_eq_some_iff.mp h
  obtain ⟨job₂, h₃, h₄⟩ := Option.bind_eq_some_iff.mp h₂
  cases step_cases h₃ with
  | stopPersist hs =>
    exact ⟨job₁, { persistStatus .stopped job₁ with stop := .returned }, h₁, hs, rfl, rfl, rfl,
      rfl, h₄⟩

/-- A job that was started and stopped is stopped for good exactly if `stop` wrote the manifest
between two iterations of the loop. -/
theorem stopped_iff_stopsBetween {manifest : Option Manifest} {actions : List Action} {job : Job}
    (hrun : (start (init manifest)).run actions = some job) (hdone : Done job) :
    Stopped job ↔ StopsBetween (start (init manifest)) actions := by
  constructor
  · rintro hst before after job₁ rfl hbefore
    obtain ⟨job₁', job₂, h₁, -, hr, -, hl, -, hafter⟩ := run_around hrun
    obtain rfl : job₁ = job₁' := Option.some.inj (hbefore.symm.trans h₁)
    cases hmid : midIteration job₁.loop with
    | false => rfl
    | true =>
      have hov : Overtaken job := run_keeps (fun hov hs => hs.overtaken hov)
        ⟨hr, .inl (by rw [hl]; exact hmid)⟩ hafter
      rcases hov.written with hmid' | hne
      · rw [hdone.loop] at hmid'
        cases hmid'
      · exact absurd hst.status hne
  · intro hbetween
    have hinv := inv_run (inv_start manifest) hrun
    obtain ⟨before, after, rfl⟩ := exists_stopPersist (by simp [start, init, persistStatus])
      hdone.stop hrun
    obtain ⟨job₁, job₂, h₁, hs, hr, he, hl, hst, hafter⟩ := run_around hrun
    have hev := (inv_run (inv_start manifest) h₁).event (by simp [hs])
    have hmid := hbetween before after job₁ rfl h₁
    have hset : Settled job := run_keeps (fun hset hs => hs.settled hset)
      ⟨hr, he.trans hev, hst, by rw [hl]; exact hmid⟩ hafter
    refine ⟨hset.status, fun proc => ?_, ?_⟩
    · cases hr : job.runs proc with
      | false => rfl
      | true =>
        rcases hinv.processes proc hr with hpos | hpos <;> simp [hdone.loop] at hpos
    · rw [Server.recovers, hset.status]
      decide

/-! ## Two runs -/

/-- `stop` is called while the prover runs, and terminates it.  The loop writes `error` after
`stop` has written `stopped`. -/
def lateWrite : List Action :=
  [.check, .spawn, .persistRunning, .stopSet, .stopTerminate, .exit 0 (-15), .stopWaited,
   .stopPersist, .waited, .persistExit, .clear, .waitStop]

/-- A job that was stopped while it ran is started again after a restart. -/
theorem stopped_job_recovered :
    ∃ job, (start (init none)).run lateWrite = some job ∧ Done job ∧
      job.manifest.status = .error ∧ recovers job.manifest = true :=
  ⟨_, rfl, ⟨rfl, rfl⟩, rfl, by decide⟩

/-- The same with the write of the loop first. -/
def earlyWrite : List Action :=
  [.check, .spawn, .persistRunning, .stopSet, .stopTerminate, .exit 0 (-15), .stopWaited,
   .waited, .persistExit, .clear, .stopPersist, .waitStop]

theorem stopped_iff_stopsBetween_sample :
    ∃ job, (start (init none)).run earlyWrite = some job ∧ Done job ∧
      (Stopped job ↔ StopsBetween (start (init none)) earlyWrite) :=
  ⟨_, rfl, ⟨rfl, rfl⟩, stopped_iff_stopsBetween rfl ⟨rfl, rfl⟩⟩

end Job
end Server
end CenoReth
