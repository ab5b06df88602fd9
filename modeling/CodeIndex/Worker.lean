import CodeIndex.Failure

/-!
One worker that owns a state and runs tasks on it one after another.

Tasks run in the order in which they are submitted, each to its end. A shutdown takes effect before
the next task is taken; tasks not run by then, and all submitted later, are answered that the worker
has stopped. A task that crashes takes the worker down with it.
-/
namespace CodeIndex

inductive Outcome (σ : Type u) (β : Type v) where
  | done (state : σ) (answer : β)
  | crashed

structure Job (σ : Type u) (β : Type v) where
  ticket : Nat
  run : σ → Outcome σ β

structure Worker (σ : Type u) (β : Type v) where
  state : σ
  waiting : List (Job σ β) := []
  nextTicket : Nat := 0
  answers : List (Nat × Except Failure β) := []
  isCancelled : Bool := false
  hasStopped : Bool := false

namespace Worker

variable {σ : Type u} {β : Type v}

def start (state : σ) : Worker σ β := { state }

def isRunning (w : Worker σ β) : Bool := !w.isCancelled && !w.hasStopped

def answer? (w : Worker σ β) (ticket : Nat) : Option (Except Failure β) :=
  (w.answers.find? (·.1 = ticket)).map (·.2)

def submit (w : Worker σ β) (run : σ → Outcome σ β) : Nat × Worker σ β :=
  let ticket := w.nextTicket
  let numbered := { w with nextTicket := ticket + 1 }
  if w.hasStopped then
    (ticket,{ numbered with answers := (ticket,.error .workerStopped) :: w.answers })
  else (ticket,{ numbered with waiting := w.waiting ++ [⟨ticket,run⟩] })

def stop (w : Worker σ β) : Worker σ β :=
  { w with
    waiting := []
    answers := (w.waiting.map fun job => (job.ticket,.error .workerStopped)).reverse ++ w.answers
    hasStopped := true }

def shutdown (w : Worker σ β) : Worker σ β := { w with isCancelled := true }

def step (w : Worker σ β) : Worker σ β :=
  if w.hasStopped then w
  else if w.isCancelled then w.stop
  else match w.waiting with
    | [] => w
    | job :: rest =>
      match job.run w.state with
      | .done state answer =>
        { w with state, waiting := rest, answers := (job.ticket,.ok answer) :: w.answers }
      | .crashed => w.stop

def runAll (w : Worker σ β) : Worker σ β :=
  (List.range (w.waiting.length + 1)).foldl (fun w _ => w.step) w

end Worker

end CodeIndex
