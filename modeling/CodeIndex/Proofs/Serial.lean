import CodeIndex.Codebase
import CodeIndex.Worker
import Mathlib.Data.List.Induction
import Mathlib.Data.List.Nodup

/-! One worker, many clients. Whatever the order in which clients submit tasks and call for a shutdown and
the worker takes its turns, the tasks that were run are the first of those taken in, in their order. The
state is what these tasks make of the first state, one after another, and each answer is what its task
gives on the state that the tasks before it left. -/
namespace CodeIndex.Worker

variable {σ : Type u} {β : Type v}

inductive Event (σ : Type u) (β : Type v) where
  | submit (run : σ → Outcome σ β)
  | shutdown
  | turn

def after (w : Worker σ β) : Event σ β → Worker σ β
  | .submit run => (w.submit run).2
  | .shutdown => w.shutdown
  | .turn => w.step

def due? (w : Worker σ β) : Option (Job σ β) :=
  match w.isRunning, w.waiting with
  | true, job :: _ =>
    match job.run w.state with
    | .done .. => some job
    | .crashed => none
  | _, _ => none

def replay (state : σ) (jobs : List (Job σ β)) : σ :=
  jobs.foldl (fun state job =>
    match job.run state with
    | .done next _ => next
    | .crashed => state) state

structure Record (σ : Type u) (β : Type v) where
  worker : Worker σ β
  accepted : List (Job σ β) := []
  executed : List (Job σ β) := []

namespace Record

def next (r : Record σ β) (event : Event σ β) : Record σ β where
  worker := r.worker.after event
  accepted := match event with
    | .submit run =>
      if r.worker.hasStopped then r.accepted else r.accepted ++ [⟨(r.worker.submit run).1,run⟩]
    | _ => r.accepted
  executed := match event with
    | .turn => r.executed ++ r.worker.due?.toList
    | _ => r.executed

def run (initial : σ) (events : List (Event σ β)) : Record σ β :=
  events.foldl next { worker := .start initial }

theorem runAppend (initial : σ) (events later : List (Event σ β)) :
    run initial (events ++ later) = later.foldl next (run initial events) := by
  simp [run,List.foldl_append]

end Record

@[simp] theorem submitTicket (w : Worker σ β) (run : σ → Outcome σ β) :
    (w.submit run).1 = w.nextTicket := by
  unfold submit
  split <;> rfl

@[simp] theorem replayNil (state : σ) : replay (β := β) state [] = state := rfl

theorem replayConcat (state : σ) (jobs : List (Job σ β)) (job : Job σ β) :
    replay state (jobs ++ [job]) = match job.run (replay state jobs) with
      | .done next _ => next
      | .crashed => replay state jobs := by
  simp [replay,List.foldl_append]

section Answers

variable {w v : Worker σ β}

theorem answerSame (same : v.answers = w.answers) (ticket : Nat) :
    v.answer? ticket = w.answer? ticket := by
  simp [answer?,same]

theorem answerPush {ticket : Nat} {answer : Except Failure β}
    (pushed : v.answers = (ticket,answer) :: w.answers) (other : Nat) :
    v.answer? other = if ticket = other then some answer else w.answer? other := by
  by_cases same : ticket = other <;> simp [answer?,pushed,same]

theorem answerStop (w : Worker σ β) (ticket : Nat) : w.stop.answer? ticket =
    if ticket ∈ w.waiting.map (·.ticket) then some (.error .workerStopped) else w.answer? ticket := by
  have told : ∀ jobs : List (Job σ β),
      ((jobs.map fun job => (job.ticket,(.error .workerStopped : Except Failure β))) ++ w.answers).find?
        (·.1 = ticket) = if ticket ∈ jobs.map (·.ticket) then some (ticket,.error .workerStopped)
          else w.answers.find? (·.1 = ticket) := by
    intro jobs
    induction jobs with
    | nil => simp
    | cons job rest ih =>
      by_cases here : job.ticket = ticket
      · simp [here]
      · have other : ¬ticket = job.ticket := fun same => here same.symm
        simp only [List.map_cons,List.cons_append,List.find?_cons,here,decide_false,ih,List.mem_cons,
          other,false_or]
  have reversed := told w.waiting.reverse
  simp only [List.map_reverse,List.mem_reverse] at reversed
  simp only [answer?,stop,reversed]
  split <;> rfl

end Answers

structure Serial (initial : σ) (r : Record σ β) : Prop where
  /-- The queue holds what was taken in after the tasks that were run; once the worker has stopped it holds
  nothing, and what it held is dropped. -/
  queue : ∃ dropped, r.accepted = r.executed ++ (dropped ++ r.worker.waiting) ∧
    (r.worker.hasStopped = false → dropped = []) ∧ (r.worker.hasStopped = true → r.worker.waiting = [])
  numbered : (r.accepted.map (·.ticket)).Nodup
  issued : ∀ job ∈ r.accepted, job.ticket < r.worker.nextTicket
  state : r.worker.state = replay initial r.executed
  answered : ∀ {before job later}, r.executed = before ++ job :: later → ∃ state value,
    job.run (replay initial before) = .done state value ∧
      r.worker.answer? job.ticket = some (.ok value)
  pending : ∀ job ∈ r.worker.waiting, r.worker.answer? job.ticket = none
  unissued : ∀ ticket, r.worker.nextTicket ≤ ticket → r.worker.answer? ticket = none
  others : ∀ ticket < r.worker.nextTicket, ticket ∉ r.executed.map (·.ticket) →
    ticket ∉ r.worker.waiting.map (·.ticket) →
    r.worker.hasStopped = true ∧ r.worker.answer? ticket = some (.error .workerStopped)

theorem turnCases (w : Worker σ β) :
    (w.step = w ∧ w.due? = none) ∨ (w.step = w.stop ∧ w.due? = none ∧ w.hasStopped = false ∧
      (w.isCancelled = true ∨ ∃ job ∈ w.waiting, job.run w.state = .crashed)) ∨
    ∃ job rest state value, w.isRunning = true ∧ w.waiting = job :: rest ∧
      job.run w.state = .done state value ∧ w.due? = some job ∧ w.step = { w with
        state
        waiting := rest
        answers := (job.ticket,.ok value) :: w.answers } := by
  unfold step due? isRunning
  cases stopped : w.hasStopped with
  | true => exact .inl ⟨rfl,by simp⟩
  | false =>
    cases cancelled : w.isCancelled with
    | true => exact .inr (.inl ⟨rfl,by simp,rfl,.inl rfl⟩)
    | false =>
      cases waiting : w.waiting with
      | nil => exact .inl ⟨rfl,rfl⟩
      | cons job rest =>
        cases ran : job.run w.state with
        | done state value =>
          exact .inr (.inr ⟨job,rest,state,value,rfl,rfl,ran,by simp [ran],by simp [ran]⟩)
        | crashed => exact .inr (.inl ⟨by simp [ran],by simp [ran],rfl,.inr ⟨job,by simp,ran⟩⟩)

theorem stepCancelled {w : Worker σ β} (cancelled : w.isCancelled = true) :
    w.step.hasStopped = true := by
  cases stopped : w.hasStopped <;> simp [step,stop,cancelled,stopped]

namespace Serial

variable {initial : σ} {r : Record σ β} (serial : Serial initial r)
include serial

theorem executedFirst : r.executed <+: r.accepted := by
  obtain ⟨dropped,parts,_⟩ := serial.queue
  exact ⟨_,parts.symm⟩

theorem running (stopped : r.worker.hasStopped = false) :
    r.accepted = r.executed ++ r.worker.waiting := by
  obtain ⟨dropped,parts,none,_⟩ := serial.queue
  rw [parts,none stopped,List.nil_append]

theorem emptied (stopped : r.worker.hasStopped = true) : r.worker.waiting = [] := by
  obtain ⟨_,_,_,empty⟩ := serial.queue
  exact empty stopped

theorem waitingFresh (stopped : r.worker.hasStopped = false) {job : Job σ β}
    (waits : job ∈ r.worker.waiting) : job.ticket ∉ r.executed.map (·.ticket) := by
  have numbered := serial.numbered
  rw [serial.running stopped,List.map_append,List.nodup_append] at numbered
  exact fun ran => numbered.2.2 _ ran _ (List.mem_map.mpr ⟨job,waits,rfl⟩) rfl

theorem executedIssued {before job later} (ran : r.executed = before ++ job :: later) :
    job.ticket < r.worker.nextTicket :=
  serial.issued job (serial.executedFirst.subset (by simp [ran]))

theorem waitingIssued {job : Job σ β} (waits : job ∈ r.worker.waiting) :
    job.ticket < r.worker.nextTicket := by
  obtain ⟨dropped,parts,_⟩ := serial.queue
  exact serial.issued job (by simp [parts,waits])

theorem refused (stopped : r.worker.hasStopped = true) (run : σ → Outcome σ β) :
    Serial initial { r with worker := (r.worker.submit run).2 } := by
  have worker : (r.worker.submit run).2 = { r.worker with
      nextTicket := r.worker.nextTicket + 1
      answers := (r.worker.nextTicket,.error .workerStopped) :: r.worker.answers } := by
    simp [submit,stopped]
  have answers := answerPush (w := r.worker) (v := (r.worker.submit run).2)
    (congrArg Worker.answers worker)
  rw [worker] at answers ⊢
  refine ⟨serial.queue,serial.numbered,fun job inside => Nat.lt_succ_of_lt (serial.issued job inside),
    serial.state,?_,?_,?_,?_⟩
  · intro before job later ran
    obtain ⟨state,value,done,answer⟩ := serial.answered ran
    have issued := serial.executedIssued ran
    exact ⟨state,value,done,by rw [answers,if_neg (by omega),answer]⟩
  · intro job waits
    have issued := serial.waitingIssued waits
    rw [answers,if_neg (by omega)]
    exact serial.pending job waits
  · intro ticket unissued
    have above : r.worker.nextTicket + 1 ≤ ticket := unissued
    rw [answers,if_neg (by omega)]
    exact serial.unissued ticket (by omega)
  · intro ticket issued unrun unheld
    refine ⟨stopped,?_⟩
    rw [answers]
    split
    · rfl
    · have below : ticket < r.worker.nextTicket + 1 := issued
      exact (serial.others ticket (by omega) unrun unheld).2

theorem queued (stopped : r.worker.hasStopped = false) (run : σ → Outcome σ β) :
    Serial initial { r with
      worker := (r.worker.submit run).2
      accepted := r.accepted ++ [⟨r.worker.nextTicket,run⟩] } := by
  have worker : (r.worker.submit run).2 = { r.worker with
      nextTicket := r.worker.nextTicket + 1
      waiting := r.worker.waiting ++ [⟨r.worker.nextTicket,run⟩] } := by
    simp [submit,stopped]
  have answers := answerSame (w := r.worker) (v := (r.worker.submit run).2)
    (by rw [worker])
  rw [worker] at answers ⊢
  refine ⟨⟨[],by simp [serial.running stopped],fun _ => rfl,fun late => ?_⟩,?_,?_,serial.state,?_,?_,?_,?_⟩
  · exact absurd (stopped.symm.trans late) (by simp)
  · simp only [List.map_append,List.map_cons,List.map_nil,List.nodup_append]
    refine ⟨serial.numbered,by simp,?_⟩
    rintro old inside new single rfl
    obtain ⟨job,listed,same⟩ := List.mem_map.mp inside
    have issued := serial.issued job listed
    have fresh : old = r.worker.nextTicket := by simpa using single
    omega
  · intro job inside
    rcases List.mem_append.mp inside with old | new
    · exact Nat.lt_succ_of_lt (serial.issued job old)
    · rw [List.mem_singleton.mp new]
      exact Nat.lt_succ_self _
  · intro before job later ran
    obtain ⟨state,value,done,answer⟩ := serial.answered ran
    exact ⟨state,value,done,by rw [answers,answer]⟩
  · intro job waits
    rw [answers]
    rcases List.mem_append.mp waits with old | new
    · exact serial.pending job old
    · rw [List.mem_singleton.mp new]
      exact serial.unissued _ (Nat.le_refl _)
  · intro ticket unissued
    have above : r.worker.nextTicket + 1 ≤ ticket := unissued
    rw [answers]
    exact serial.unissued ticket (by omega)
  · intro ticket issued unrun unheld
    have below : ticket < r.worker.nextTicket + 1 := issued
    have apart : ticket ∉ r.worker.waiting.map (·.ticket) ∧ ticket ≠ r.worker.nextTicket := by
      simpa using unheld
    rw [answers]
    exact serial.others ticket (by omega) unrun apart.1

theorem submitted (run : σ → Outcome σ β) : Serial initial (r.next (.submit run)) := by
  cases stopped : r.worker.hasStopped with
  | true => simpa [Record.next,after,stopped] using serial.refused stopped run
  | false => simpa [Record.next,after,stopped] using serial.queued stopped run

theorem cancelled : Serial initial (r.next .shutdown) :=
  ⟨serial.queue,serial.numbered,serial.issued,serial.state,serial.answered,serial.pending,
    serial.unissued,serial.others⟩

theorem halted (stopped : r.worker.hasStopped = false) :
    Serial initial { r with worker := r.worker.stop } := by
  have parts := serial.running stopped
  refine ⟨⟨r.worker.waiting,by simpa [stop] using parts,by simp [stop],by simp [stop]⟩,serial.numbered,
    serial.issued,serial.state,?_,by simp [stop],?_,?_⟩
  · intro before job later ran
    replace ran : r.executed = before ++ job :: later := ran
    obtain ⟨state,value,done,answer⟩ := serial.answered ran
    refine ⟨state,value,done,?_⟩
    have apart : job.ticket ∉ r.worker.waiting.map (·.ticket) := by
      intro waits
      obtain ⟨other,inside,same⟩ := List.mem_map.mp waits
      exact serial.waitingFresh stopped inside (by simp [ran,same])
    rw [answerStop,if_neg apart,answer]
  · intro ticket unissued
    have apart : ticket ∉ r.worker.waiting.map (·.ticket) := by
      intro waits
      obtain ⟨job,inside,rfl⟩ := List.mem_map.mp waits
      have issued := serial.issued job (by simp [parts,inside])
      have above : r.worker.nextTicket ≤ job.ticket := unissued
      omega
    rw [answerStop,if_neg apart]
    exact serial.unissued ticket unissued
  · intro ticket issued unrun _
    refine ⟨rfl,?_⟩
    rw [answerStop]
    split
    · rfl
    · rename_i apart
      exact (serial.others ticket issued unrun apart).2

theorem worked {job : Job σ β} {rest : List (Job σ β)} {state : σ} {value : β}
    (stopped : r.worker.hasStopped = false) (waiting : r.worker.waiting = job :: rest)
    (ran : job.run r.worker.state = .done state value) :
    Serial initial { r with
      worker := { r.worker with
        state
        waiting := rest
        answers := (job.ticket,.ok value) :: r.worker.answers }
      executed := r.executed ++ [job] } := by
  have parts := serial.running stopped
  have answers := answerPush (w := r.worker) (v := { r.worker with
    state
    waiting := rest
    answers := (job.ticket,.ok value) :: r.worker.answers }) rfl
  have numbered := serial.numbered
  rw [parts,waiting] at numbered
  simp only [List.map_append,List.map_cons,List.nodup_append,List.nodup_cons] at numbered
  obtain ⟨_,⟨alone,_⟩,apart⟩ := numbered
  have fresh : job.ticket ∉ r.executed.map (·.ticket) :=
    serial.waitingFresh stopped (by simp [waiting])
  refine ⟨⟨[],by simp [parts,waiting],fun _ => rfl,fun late => ?_⟩,serial.numbered,serial.issued,?_,?_,?_,
    ?_,?_⟩
  · exact absurd (stopped.symm.trans late) (by simp)
  · simp only [replayConcat,← serial.state,ran]
  · intro before last later split
    replace split : r.executed ++ [job] = before ++ last :: later := split
    -- Either the task just run, or one that ran before it and was answered then.
    rcases List.eq_nil_or_concat later with rfl | ⟨between,final,rfl⟩
    · obtain ⟨rfl,single⟩ := List.append_inj' split rfl
      cases List.singleton_inj.mp single
      exact ⟨state,value,by rw [← serial.state,ran],by simp [answers]⟩
    · have earlier : r.executed = before ++ last :: between := by
        rw [List.concat_eq_append,← List.cons_append,← List.append_assoc] at split
        exact (List.append_inj' split rfl).1
      obtain ⟨state',value',done,answer⟩ := serial.answered earlier
      refine ⟨state',value',done,?_⟩
      rw [answers,if_neg,answer]
      exact fun same => fresh (by simp [earlier,same])
  · intro other waits
    have different : job.ticket ≠ other.ticket := fun same =>
      alone (List.mem_map.mpr ⟨other,waits,same.symm⟩)
    rw [answers,if_neg different]
    exact serial.pending other (by simp [waiting,waits])
  · intro ticket unissued
    have issued : job.ticket < r.worker.nextTicket := serial.waitingIssued (by simp [waiting])
    have above : r.worker.nextTicket ≤ ticket := unissued
    rw [answers,if_neg (by omega)]
    exact serial.unissued ticket above
  · intro ticket issued unrun unheld
    replace unrun : ticket ∉ (r.executed ++ [job]).map (·.ticket) := unrun
    simp only [List.map_append,List.map_cons,List.map_nil,List.mem_append,List.mem_singleton,not_or]
      at unrun
    rw [answers,if_neg (Ne.symm unrun.2)]
    refine serial.others ticket issued unrun.1 ?_
    rw [waiting,List.map_cons,List.mem_cons,not_or]
    exact ⟨unrun.2,unheld⟩

theorem turned : Serial initial (r.next .turn) := by
  rcases turnCases r.worker with ⟨same,none⟩ | ⟨ends,none,stopped,_⟩ |
    ⟨job,rest,state,value,running,waiting,ran,due,worker⟩
  · simpa [Record.next,after,same,none] using serial
  · simpa [Record.next,after,ends,none] using serial.halted stopped
  · have stopped : r.worker.hasStopped = false := by
      simp only [isRunning,Bool.and_eq_true,Bool.not_eq_true'] at running
      exact running.2
    simpa [Record.next,after,worker,due] using serial.worked stopped waiting ran

theorem step (event : Event σ β) : Serial initial (r.next event) := by
  cases event with
  | submit run => exact serial.submitted run
  | shutdown => exact serial.cancelled
  | turn => exact serial.turned

end Serial

theorem startSerial (initial : σ) : Serial initial (Record.run (β := β) initial []) where
  queue := ⟨[],rfl,fun _ => rfl,fun _ => rfl⟩
  numbered := List.nodup_nil
  issued := by simp [Record.run]
  state := rfl
  answered := by simp [Record.run]
  pending := by simp [Record.run,start]
  unissued := fun _ _ => rfl
  others := by simp [Record.run,start]

theorem runSerial (initial : σ) (events : List (Event σ β)) :
    Serial initial (Record.run initial events) := by
  induction events using List.reverseRecOn with
  | nil => exact startSerial initial
  | append_singleton earlier event ih =>
    rw [Record.runAppend]
    exact ih.step event

namespace Record

variable {r : Record σ β}

theorem nextIdle (idle : r.worker.isRunning = false) (event : Event σ β) :
    (r.next event).worker.isRunning = false ∧ (r.next event).executed = r.executed ∧
      (r.next event).worker.state = r.worker.state ∧
      (r.worker.hasStopped = true → (r.next event).worker.hasStopped = true) := by
  cases event with
  | submit run =>
    refine ⟨?_,rfl,?_,?_⟩ <;> simp only [next,after,submit] <;> split
    all_goals first | exact idle | rfl | exact id
  | shutdown => exact ⟨by simp [next,after,shutdown,isRunning],rfl,rfl,id⟩
  | turn =>
    rcases turnCases r.worker with ⟨same,none⟩ | ⟨ends,none,_⟩ | ⟨_,_,_,_,running,_⟩
    · simp [next,after,same,none,idle]
    · simp [next,after,ends,none,stop,isRunning]
    · simp [running] at idle

theorem laterIdle (idle : r.worker.isRunning = false) (later : List (Event σ β)) :
    (later.foldl next r).executed = r.executed ∧
      (later.foldl next r).worker.state = r.worker.state ∧
      (r.worker.hasStopped = true → (later.foldl next r).worker.hasStopped = true) := by
  induction later generalizing r with
  | nil => exact ⟨rfl,rfl,id⟩
  | cons event rest ih =>
    obtain ⟨idle',executed,state,stopped⟩ := nextIdle idle event
    obtain ⟨executed',state',stopped'⟩ := ih idle'
    exact ⟨executed'.trans executed,state'.trans state,fun ended => stopped' (stopped ended)⟩

theorem acceptedLater (later : List (Event σ β)) :
    ∀ job ∈ r.accepted, job ∈ (later.foldl next r).accepted := by
  induction later generalizing r with
  | nil => exact fun _ inside => inside
  | cons event rest ih =>
    refine fun job inside => ih job ?_
    cases event with
    | submit run =>
      simp only [next]
      split <;> simp [inside]
    | shutdown | turn => exact inside

structure Excused (events : List (Event σ β)) (r : Record σ β) : Prop where
  cancelled : r.worker.isCancelled = true ↔ .shutdown ∈ events
  stopped : r.worker.hasStopped = true → r.worker.isCancelled = true ∨
    ∃ job ∈ r.accepted, job.run r.worker.state = .crashed

theorem Excused.step {initial : σ} {events : List (Event σ β)} (excused : Excused events r)
    (serial : Serial initial r) (event : Event σ β) : Excused (events ++ [event]) (r.next event) := by
  obtain ⟨cancelled,stopped⟩ := excused
  cases event with
  | submit run =>
    have same : (r.worker.submit run).2.isCancelled = r.worker.isCancelled ∧
        (r.worker.submit run).2.hasStopped = r.worker.hasStopped ∧
        (r.worker.submit run).2.state = r.worker.state := by
      unfold submit
      split <;> exact ⟨rfl,rfl,rfl⟩
    refine ⟨by simpa [next,after,same] using cancelled,fun ended => ?_⟩
    simp only [next,after,same] at ended ⊢
    refine (stopped ended).imp_right fun ⟨job,inside,crashed⟩ => ⟨job,?_,crashed⟩
    simpa [ended] using inside
  | shutdown => exact ⟨by simp [next,after,shutdown],fun _ => .inl rfl⟩
  | turn =>
    rcases turnCases r.worker with ⟨same,_⟩ | ⟨ends,_,running,reason⟩ | ⟨_,_,_,_,running,_,_,_,worker⟩
    · exact ⟨by simpa [next,after,same] using cancelled,by simpa [next,after,same] using stopped⟩
    · refine ⟨by simpa [next,after,ends,stop] using cancelled,fun _ => ?_⟩
      simp only [next,after,ends,stop]
      refine reason.imp_right fun ⟨job,waits,crashed⟩ => ⟨job,?_,crashed⟩
      simp [serial.running running,waits]
    · refine ⟨by simpa [next,after,worker] using cancelled,fun ended => ?_⟩
      simp only [next,after,worker] at ended
      simp [isRunning,ended] at running

theorem runExcused (initial : σ) (events : List (Event σ β)) : Excused events (run initial events) := by
  induction events using List.reverseRecOn with
  | nil => exact ⟨by simp [run,start],by simp [run,start]⟩
  | append_singleton earlier event ih =>
    rw [runAppend]
    exact ih.step (runSerial initial earlier) event

theorem runIdle (initial : σ) {events : List (Event σ β)}
    (ended : .shutdown ∈ events ∨ (run initial events).worker.hasStopped = true) :
    (run initial events).worker.isRunning = false := by
  unfold isRunning
  rcases ended with told | stopped
  · simp [(runExcused initial events).cancelled.mpr told]
  · simp [stopped]

end Record

namespace Serial

variable {initial : σ} {r : Record σ β} (serial : Serial initial r)
include serial

theorem answeredIff (ticket : Nat) (value : β) : r.worker.answer? ticket = some (.ok value) ↔
    ∃ before job later state, r.executed = before ++ job :: later ∧ job.ticket = ticket ∧
      job.run (replay initial before) = .done state value := by
  constructor
  · intro answer
    have issued : ticket < r.worker.nextTicket := by
      refine Nat.lt_of_not_le fun unissued => ?_
      simp [serial.unissued ticket unissued] at answer
    have unheld : ticket ∉ r.worker.waiting.map (·.ticket) := by
      intro waits
      obtain ⟨job,inside,rfl⟩ := List.mem_map.mp waits
      simp [serial.pending job inside] at answer
    by_cases ran : ticket ∈ r.executed.map (·.ticket)
    · obtain ⟨job,inside,rfl⟩ := List.mem_map.mp ran
      obtain ⟨before,later,parts⟩ := List.append_of_mem inside
      obtain ⟨state,value',done,answer'⟩ := serial.answered parts
      cases Option.some.inj (answer.symm.trans answer')
      exact ⟨before,job,later,state,parts,rfl,done⟩
    · simp [(serial.others ticket issued ran unheld).2] at answer
  · rintro ⟨before,job,later,state,parts,rfl,done⟩
    obtain ⟨state',value',done',answer⟩ := serial.answered parts
    rw [done] at done'
    cases done'
    exact answer

theorem unexecuted (stopped : r.worker.hasStopped = true) {ticket : Nat}
    (issued : ticket < r.worker.nextTicket) (unrun : ticket ∉ r.executed.map (·.ticket)) :
    r.worker.answer? ticket = some (.error .workerStopped) := by
  exact (serial.others ticket issued unrun (by simp [serial.emptied stopped])).2

end Serial

/-- The worker serves its queue in order. What was run is the beginning of what was taken in, each task
once, and the rest waits for as long as the worker serves; the state and the answers are those of the tasks
run one after another. Only a shutdown or a crash stops the worker. From then on no task is taken, and those
not run are told that the worker has stopped. -/
theorem servesInOrder (initial : σ) (events : List (Event σ β)) :
    let r := Record.run initial events
    r.executed <+: r.accepted ∧ (r.accepted.map (·.ticket)).Nodup ∧
    (r.worker.hasStopped = false → r.accepted = r.executed ++ r.worker.waiting) ∧
    (r.worker.hasStopped = true → r.worker.waiting = []) ∧
    r.worker.state = replay initial r.executed ∧
    (∀ ticket value, r.worker.answer? ticket = some (.ok value) ↔
      ∃ before job later state, r.executed = before ++ job :: later ∧ job.ticket = ticket ∧
        job.run (replay initial before) = .done state value) ∧
    (r.worker.hasStopped = true → .shutdown ∈ events ∨
      ∃ job ∈ r.accepted, job.run r.worker.state = .crashed) ∧
    (.shutdown ∈ events → r.worker.step.hasStopped = true) ∧
    ∀ later, let r' := Record.run initial (events ++ later)
      (.shutdown ∈ events ∨ r.worker.hasStopped = true →
        r'.executed = r.executed ∧ r'.worker.state = r.worker.state) ∧
      (r.worker.hasStopped = true →
        (∀ job ∈ r.accepted, job ∉ r.executed →
          r'.worker.answer? job.ticket = some (.error .workerStopped)) ∧
        ∀ task, (r'.worker.submit task).2.answer? (r'.worker.submit task).1 =
          some (.error .workerStopped)) := by
  intro r
  have serial : Serial initial r := runSerial initial events
  have excused : Record.Excused events r := Record.runExcused initial events
  refine ⟨serial.executedFirst,serial.numbered,serial.running,serial.emptied,serial.state,serial.answeredIff,
    ?_,?_,fun later => ?_⟩
  · exact fun stopped => (excused.stopped stopped).imp_left excused.cancelled.mp
  · intro told
    exact stepCancelled (excused.cancelled.mpr told)
  · have serial' : Serial initial (Record.run initial (events ++ later)) := runSerial initial _
    rw [Record.runAppend] at serial' ⊢
    refine ⟨fun ended => ?_,fun stopped => ?_⟩
    · obtain ⟨executed,state,_⟩ := Record.laterIdle (Record.runIdle initial ended) later
      exact ⟨executed,state⟩
    · obtain ⟨executed,_,ended⟩ := Record.laterIdle (Record.runIdle initial (.inr stopped)) later
      refine ⟨fun job inside unrun => ?_,fun task => ?_⟩
      · refine serial'.unexecuted (ended stopped)
          (serial'.issued job (Record.acceptedLater later job inside)) fun ran => unrun ?_
        rw [executed] at ran
        obtain ⟨other,ran,same⟩ := List.mem_map.mp ran
        have accepted := serial.executedFirst.subset ran
        exact List.inj_on_of_nodup_map serial.numbered accepted inside same ▸ ran
      · have refused := ended stopped
        simp [submit,refused,answer?]

-- A task may answer with a failure of its own; the next one is served all the same.
example :
    let file (path : String) (span : Span) : Event Codebase (Except Failure SymbolRef) :=
      .submit fun c => let (result,c) := c.putFile { path, span }; .done c result
    let r := Record.run { id := 0, name := "app", language := .bare, settings := default }
      [file "a" ⟨5,1⟩,.turn,file "b" ⟨0,9⟩,file "c" ⟨0,9⟩,.turn,.shutdown,file "d" ⟨0,9⟩,.turn]
    r.executed.map (·.ticket) = [0,1] ∧ r.worker.state.table.files.keys = ["b"] := by
  decide +kernel

end CodeIndex.Worker
