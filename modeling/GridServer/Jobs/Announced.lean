import GridServer.Jobs.Current

namespace GridServer.Jobs
open Library

variable {Data Work Output : Type}

def Sent.request? : Sent Data Output → Option SchedulerRequest
  | .request asked => some asked
  | _ => none

/-- The requests among the messages, in the order they were sent. -/
def requests (out : List (Sent Data Output)) : List SchedulerRequest := out.filterMap Sent.request?

/-- The job that the scheduler was told of last, and the tasks that it was told of since. -/
structure Said where
  job : Option (Uuid × Nat × WorkerJobData)
  tasks : List WorkerTask

namespace Said

def none : Said := ⟨.none, []⟩

def hear (said : Said) : SchedulerRequest → Said
  | .newJob id totalTasks job => ⟨some (id, totalTasks, job), []⟩
  | .task batch => { said with tasks := said.tasks ++ batch }
  | .helloMessage => said

/-- The history variable. -/
def note (said : Said) (_ : State Data Work Output) (_ : Event Data) (out : List (Sent Data Output)) :
    Said :=
  (requests out).foldl hear said

end Said

/-- What an answer to a command holds is no request. -/
theorem requests_command (engine : Engine Data Work Output) (s : State Data Work Output)
    (command : Command Data) : requests (s.processCommand engine command).2.1 = [] := by
  unfold State.processCommand
  split
  · rfl
  · split
    · rfl
    · split
      · rfl
      · rfl
  · rfl
  · rfl
  · rfl

variable {engine : Engine Data Work Output} {s t : State Data Work Output} {e : Event Data}
  {out : List (Sent Data Output)}

/-- Only the turn that works on a job sends anything to the scheduler. -/
theorem requests_of_step (he : e ≠ .processJob) (taken : s.step engine e = .ok (t, out)) :
    requests out = [] := by
  have receive : ∀ {stats results turn}, s.receive engine stats results = .ok turn →
      turn.2.1 = [] := by
    intro stats results turn h
    unfold State.receive at h
    split at h
    · cases h
      rfl
    · split at h
      · obtain ⟨_, _, h⟩ := bind_ok.mp h
        cases h
        rfl
      · cases h
        rfl
  cases e with
  | processJob => exact absurd rfl he
  | command command =>
    have hout : out = (s.processCommand engine command).2.1 := (State.follow_ok taken).1
    rw [hout]
    exact requests_command engine s command
  | scheduler event =>
    obtain ⟨⟨u, out', flow⟩, hturn, taken⟩ := bind_ok.mp taken
    obtain ⟨rfl, _⟩ := State.follow_ok taken
    cases event with
    | connected | disconnected =>
      cases hturn
      rfl
    | connectionNotEstablished =>
      cases hturn
      rfl
    | message response =>
      cases response with
      | taskResults results => rw [show out = [] from receive hturn]; rfl
      | jobComplete left stats => rw [show out = [] from receive hturn]; rfl
      | schedulerBusy | schedulerFree | taskExecutionError =>
        cases hturn
        rfl

/-- Without a current job nothing is sent. -/
theorem requests_idle (hc : s.currentJob = none) (taken : s.step engine e = .ok (t, out)) :
    requests out = [] := by
  by_cases he : e = .processJob
  · subst he
    simp only [State.step] at taken
    split at taken
    · obtain ⟨⟨u, out', flow⟩, hturn, taken⟩ := bind_ok.mp taken
      obtain ⟨rfl, _⟩ := State.follow_ok taken
      simp only [State.processJob, hc] at hturn
      split at hturn
      · cases hturn
        rfl
      · cases hturn
        rfl
    · cases taken
  · exact requests_of_step he taken

end GridServer.Jobs
