import GridServer.Scheduler.Delivery

namespace GridServer
open Library

/-- The tasks that a message asks for over the connection. -/
def Sent.asks (connection : Nat) : Sent → List TaskId
  | .node link _ request => if link.connection = connection then request.named else []
  | _ => []

namespace Scheduler
variable {checks : Bool} {s s' : Scheduler} {job : ScheduledJob} {out : List Sent} {e : Event}
variable {w : WorkerId}

/-- A step that asks no node for anything, and adds none. -/
structure Unlinked (s s' : Scheduler) (out : List Sent) : Prop where
  sent : ∀ m ∈ out, ∀ connection, m.asks connection = []
  nodes : ∀ w node, s'.connectionManager.nodes.get w = some node →
    s.connectionManager.nodes.get w = some node

namespace Unlinked

theorem of_eq (hout : ∀ m ∈ out, ∀ connection, m.asks connection = [])
    (hnodes : s'.connectionManager.nodes = s.connectionManager.nodes) : Unlinked s s' out :=
  ⟨hout, fun _ _ h => hnodes ▸ h⟩

theorem refl (s : Scheduler) : Unlinked s s [] := .of_eq (by simp) rfl

theorem cleared (hout : ∀ m ∈ out, ∀ connection, m.asks connection = [])
    (hnodes : s'.connectionManager.nodes = s.connectionManager.nodes.clear) :
    Unlinked s s' out := by
  refine ⟨hout, ?_⟩
  intro w node h
  rw [hnodes, VecMap.get_clear] at h
  cases h

theorem putBack {b : Borrowed} {j : Option ScheduledJob} {need : Bool}
    (h : s.putBack checks b j need = .ok s') (hout : ∀ m ∈ out, ∀ connection, m.asks connection = []) :
    Unlinked s s' out := by
  obtain ⟨_, _, rfl⟩ := putBack_ok.mp h
  exact .of_eq hout rfl

theorem workerDisconnect (h : s.processWorkerDisconnect checks w = .ok s') : Unlinked s s' [] := by
  obtain ⟨_, _, _, _, _, _, rfl, _⟩ := processWorkerDisconnect_ok h
  refine ⟨by simp, ?_⟩
  intro w' node hnode
  rw [VecMap.get_remove] at hnode
  by_cases hw : w' = w
  · rw [hw, Function.update_self] at hnode
    cases hnode
  · rwa [Function.update_of_ne hw] at hnode

theorem result (sound : s.Sound) {result : WorkerResult}
    (h : s.processResult checks w result = .ok (s', out)) : Unlinked s s' out := by
  cases hj : s.scheduledJob with
  | none =>
    simp only [processResult, hj, Except.ok.injEq, Prod.mk.injEq] at h
    obtain ⟨rfl, rfl⟩ := h
    exact .refl s
  | some job =>
    cases ht : s.tasksQueue.get result.id with
    | none =>
      obtain ⟨rfl, ⟨workersQueue, need, rfl⟩, _⟩ := processResult_late sound hj ht h
      exact .of_eq (by simp) rfl
    | some task =>
      obtain ⟨average, tasksQueue, workersQueue, buffer, batch, _, _, _, _, _, hend⟩ :=
        processResult_queued sound hj ht h
      rcases hend with ⟨_, rfl, rfl⟩ | ⟨_, rfl, rfl⟩
      · refine .cleared ?_ rfl
        cases batch <;> simp [Sent.asks]
      · refine .of_eq ?_ rfl
        cases batch <;> simp [Sent.asks]

theorem libraryMissing {tasks : List TaskId} {replacements : List (TaskId × TaskId)}
    (h : s.processLibraryMissing checks w tasks replacements = .ok (s', out)) :
    Unlinked s s' out := by
  obtain ⟨rfl, ⟨rfl, _⟩ | ⟨_, _, _, _, _, _, _, _, hput⟩⟩ := processLibraryMissing_ok h
  · exact .refl s
  · exact putBack hput (by simp)

theorem taskExecutionError {t : TaskId} {error : String}
    (h : s.processTaskExecutionError checks w t error = .ok (s', out)) : Unlinked s s' out := by
  rcases processTaskExecutionError_ok h with ⟨rfl, rfl, _⟩ |
    ⟨_, _, _, _, _, _, _, hput, hend⟩
  · exact .refl s
  · rcases hend with ⟨_, _, rfl⟩ | ⟨_, _, rfl⟩
    · exact putBack hput (by simp [Sent.asks])
    · exact putBack hput (by simp)

theorem noFreeExecutors {tasks : List TaskId}
    (h : s.processNoFreeExecutors checks w tasks = .ok (s', out)) : Unlinked s s' out := by
  obtain ⟨rfl, ⟨rfl, _⟩ | ⟨_, _, _, _, _, _, _, _, _, hput⟩⟩ := processNoFreeExecutors_ok h
  · exact .refl s
  · exact putBack hput (by simp)

theorem newJob (id : Uuid) (totalTasks : Nat) (data : WorkerJobData) :
    Unlinked s (s.processNewJob id totalTasks data).1 (s.processNewJob id totalTasks data).2 := by
  refine .cleared ?_ rfl
  intro m hm connection
  simp only [processNewJob] at hm
  split at hm
  · rw [List.mem_singleton.mp hm]
    rfl
  · cases hm

theorem createdSession (h : s.processCreatedSession = .ok (s', out)) : Unlinked s s' out := by
  rcases processCreatedSession_ok h with ⟨rfl, rfl, _⟩ | ⟨_, _, _, rfl, hend⟩
  · exact .refl s
  · rcases hend with ⟨_, _, _, rfl⟩ | ⟨_, _, _, _, rfl⟩
    · exact .cleared (by simp) rfl
    · exact .cleared (by simp [Sent.asks]) rfl

end Unlinked

/-- Only the scheduling branch asks nodes for anything, and only a node that connects is added. -/
theorem step_unlinked (sound : s.Sound) (hschedule : e ≠ .schedule)
    (hconnected : ∀ info node, e ≠ .worker (.connected info node))
    (h : s.step checks e = .ok (s', out)) : Unlinked s s' out := by
  cases step_branch h with
  | schedule => exact absurd rfl hschedule
  | connected info node => exact absurd rfl (hconnected info node)
  | hello | noTaskManager | nodeManagerConnected => exact .refl s
  | nodes | scheduledJob | listedWorkers | listedTasks => exact .of_eq (by simp [Sent.asks]) rfl
  | taskManagerConnected | restoredSession => exact .of_eq (by simp) rfl
  | nodeManagerLeft => exact .of_eq (by simp [Sent.asks]) rfl
  | taskManagerLeft => exact .cleared (by simp [Sent.asks]) rfl
  | newJob id totalTasks data => exact .newJob id totalTasks data
  | tasks batch _ _ taken =>
    obtain ⟨rfl, ⟨rfl, _⟩ | ⟨_, _, _, _, _, _, rfl⟩⟩ := processTaskBatch_ok taken
    · exact .refl s
    · exact .of_eq (by simp) rfl
  | nodeLeft w _ taken | disconnected w _ taken => exact .workerDisconnect taken
  | createdSession _ _ taken => exact .createdSession taken
  | result w result _ _ taken => exact .result sound taken
  | libraryMissing w tasks replacements _ _ taken => exact .libraryMissing taken
  | taskExecutionError w t error _ _ taken => exact .taskExecutionError taken
  | noFreeExecutors w tasks _ _ taken => exact .noFreeExecutors taken

/-- The scheduling branch asks over the connections that there are, and leaves them as they are. -/
theorem processScheduling_linked (h : s.processScheduling checks = .ok (s', out)) :
    s'.connectionManager = s.connectionManager ∧ ∀ m ∈ out, ∃ node w request,
      m = .node node w request ∧ s.connectionManager.nodes.get w = some node := by
  cases hj : s.scheduledJob with
  | none =>
    obtain ⟨rfl, rfl⟩ := processScheduling_idle hj h
    exact ⟨rfl, by simp⟩
  | some job =>
    rcases processScheduling_cases hj h with ⟨rfl, rfl, _⟩ |
      ⟨w, v, n, g₁, tasks, g₂, replacements, workersQueue, _, _, _, _, _, _, _, rfl, rfl⟩
    · exact ⟨rfl, by simp⟩
    · refine ⟨rfl, ?_⟩
      intro m hm
      simp only [dispatch, sendNode] at hm
      split at hm
      · split at hm
        · rename_i node hnode
          exact ⟨node, _, _, List.mem_singleton.mp hm, hnode⟩
        · cases hm
      · cases hm

/-- Where a message of a node comes from: its connection, and the job that it was computed for. -/
structure Origin where
  connection : Nat
  job : Nat
deriving DecidableEq, Repr

/-- A turn of the main loop, with the origin of the message when it takes one of a node. The
scheduler does not see the origin. -/
structure Arrival where
  event : Event
  origin : Origin
deriving DecidableEq, Repr

def arrive (checks : Bool) (s : Scheduler) (a : Arrival) : Except Fault (Scheduler × List Sent) :=
  s.step checks a.event

/-- A result that was counted: the job that was current, the one that was when its connection was
opened, and the one that it was computed for. Jobs are numbered in the order they were started. -/
structure Tally where
  current : Nat
  opened : Option Nat
  origin : Nat
deriving DecidableEq, Repr

/-- What has gone over the connections: how many jobs were started, which worker each connection
leads to and which job was current when it was opened, which tasks of which jobs were asked for over
it, and the results counted so far. -/
structure Post where
  job : Nat
  opened : Nat → Option (WorkerId × Nat)
  asked : Nat → List (Nat × TaskId)
  counted : List Tally

namespace Post

def none : Post := ⟨0, fun _ => .none, fun _ => [], []⟩

/-- A request asks for tasks of the current job. -/
def send (g : Post) (out : List Sent) : Post :=
  { g with asked := fun connection => g.asked connection ++
      (out.flatMap (Sent.asks connection)).map fun t => (g.job, t) }

/-- A result that comes over the connection, when it is counted. -/
def tally (g : Post) (origin : Origin) : Tally :=
  ⟨g.job, (g.opened origin.connection).map Prod.snd, origin.job⟩

/-- The history variable. -/
def note (g : Post) (s : Scheduler) (a : Arrival) (out : List Sent) : Post :=
  match a.event with
  | .taskManager (.message (.newJob ..)) => { g.send out with job := g.job + 1 }
  | .worker (.connected info node) =>
    { g.send out with
      opened := Function.update g.opened node.connection (some (info.workerId, g.job)) }
  | .worker (.message _ (.result _)) =>
    { g.send out with counted := g.counted ++ (s.accepts a.event).toList.map fun _ => g.tally a.origin }
  | _ => g.send out

theorem send_unlinked {s s' : Scheduler} {out : List Sent} (g : Post) (h : Unlinked s s' out) :
    g.send out = g := by
  have hnone : ∀ connection, out.flatMap (Sent.asks connection) = [] :=
    fun connection => List.flatMap_eq_nil_iff.mpr fun m hm => h.sent m hm connection
  simp only [send, hnone, List.map_nil, List.append_nil]

end Post

/-- A connection says once that it is there, and a result comes from the worker it leads to, and was
computed for a task that was asked for over it. -/
def Honest (p : Scheduler × Post) (a : Arrival) : Prop :=
  match a.event with
  | .worker (.connected _ node) => p.2.opened node.connection = none
  | .worker (.message w (.result result)) =>
    (p.2.opened a.origin.connection).map Prod.fst = some w ∧
      (a.origin.job, result.id) ∈ p.2.asked a.origin.connection
  | _ => True

instance (p : Scheduler × Post) (a : Arrival) : Decidable (Honest p a) := by
  unfold Honest
  split <;> infer_instance

/-- What is asked for over a connection is of the job that was current when it was opened, and the
connections to the nodes were all opened since the current job started. -/
structure Traced (s : Scheduler) (g : Post) : Prop where
  nodes : ∀ w node, s.connectionManager.nodes.get w = some node →
    ∃ v, g.opened node.connection = some (v, g.job)
  asked : ∀ connection j t, (j, t) ∈ g.asked connection → ∃ v, g.opened connection = some (v, j)
  counted : ∀ r ∈ g.counted, r.opened = some r.origin

namespace Traced
variable {g : Post}

theorem new (config : Config) : Traced (Scheduler.new config) .none := by
  constructor
  · intro w node h
    rw [Scheduler.new, VecMap.get_new] at h
    cases h
  · intro connection j t h
    cases h
  · intro r h
    cases h

/-- No node is asked for anything, and none is added. -/
theorem unlinked (traced : Traced s g) (h : Unlinked s s' out) : Traced s' (g.send out) := by
  rw [g.send_unlinked h]
  exact ⟨fun w node hnode => traced.nodes w node (h.nodes w node hnode), traced.asked,
    traced.counted⟩

/-- A new job starts without nodes. -/
theorem newJob (traced : Traced s g) (hnodes : ∀ w, s'.connectionManager.nodes.get w = none) :
    Traced s' { g with job := g.job + 1 } := by
  refine ⟨?_, traced.asked, traced.counted⟩
  intro w node h
  rw [hnodes] at h
  cases h

/-- The scheduling branch asks nodes for tasks. -/
theorem schedule (traced : Traced s g) (h : s.processScheduling checks = .ok (s', out)) :
    Traced s' (g.send out) := by
  obtain ⟨hsame, hlinked⟩ := processScheduling_linked h
  refine ⟨?_, ?_, traced.counted⟩
  · rw [hsame]
    exact traced.nodes
  · intro connection j t hasked
    cases List.mem_append.mp hasked with
    | inl hold => exact traced.asked connection j t hold
    | inr hnew =>
      obtain ⟨t', ht', heq⟩ := List.mem_map.mp hnew
      obtain ⟨m, hm, hasks⟩ := List.mem_flatMap.mp ht'
      obtain ⟨node, w, request, rfl, hnode⟩ := hlinked m hm
      obtain ⟨rfl, rfl⟩ := Prod.mk.inj heq
      rw [Sent.asks] at hasks
      split at hasks
      · rename_i hconnection
        rw [← hconnection]
        exact traced.nodes w node hnode
      · cases hasks

/-- A node connects. -/
theorem connected (traced : Traced s g) {info : WorkerInfo} {node : Node}
    (fresh : g.opened node.connection = none)
    (h : s.processConnected checks info node = .ok (s', out)) :
    out = [] ∧ Traced s' { g with
      opened := Function.update g.opened node.connection (some (info.workerId, g.job)) } := by
  obtain ⟨rfl, _, _, _, rfl⟩ := processConnected_ok h
  have hopened : ∀ connection v, g.opened connection = some v →
      Function.update g.opened node.connection (some (info.workerId, g.job)) connection = some v := by
    intro connection v hv
    have hne : connection ≠ node.connection := by
      rintro rfl
      rw [fresh] at hv
      cases hv
    rwa [Function.update_of_ne hne]
  refine ⟨rfl, ?_, ?_, traced.counted⟩
  · intro w' node' hnode
    rw [VecMap.get_insert] at hnode
    by_cases hw : w' = info.workerId
    · rw [hw, Function.update_self, Option.some.injEq] at hnode
      subst hnode
      exact ⟨info.workerId, Function.update_self ..⟩
    · rw [Function.update_of_ne hw] at hnode
      obtain ⟨v, hv⟩ := traced.nodes w' node' hnode
      exact ⟨v, hopened _ _ hv⟩
  · intro connection j t hasked
    obtain ⟨v, hv⟩ := traced.asked connection j t hasked
    exact ⟨v, hopened _ _ hv⟩

/-- A result that is counted comes over a connection that was opened for the job that it was
computed for. -/
theorem count (traced : Traced s g) {origin : Origin} {t : TaskId}
    (hasked : (origin.job, t) ∈ g.asked origin.connection) (results : List WorkerResult) :
    Traced s { g with counted := g.counted ++ results.map fun _ => g.tally origin } := by
  refine ⟨traced.nodes, traced.asked, ?_⟩
  intro r hr
  cases List.mem_append.mp hr with
  | inl hold => exact traced.counted r hold
  | inr hnew =>
    obtain ⟨_, _, rfl⟩ := List.mem_map.mp hnew
    obtain ⟨v, hv⟩ := traced.asked _ _ _ hasked
    rw [Post.tally, hv]
    rfl

end Traced

theorem step_traced {g : Post} {a : Arrival} (sound : s.Sound) (traced : Traced s g)
    (honest : Honest (s, g) a) (h : s.arrive checks a = .ok (s', out)) :
    Traced s' (g.note s a out) := by
  obtain ⟨event, origin⟩ := a
  change s.step checks event = .ok (s', out) at h
  have other (hschedule : event ≠ .schedule)
      (hconnected : ∀ info node, event ≠ .worker (.connected info node)) : Unlinked s s' out :=
    step_unlinked sound hschedule hconnected h
  cases event with
  | schedule =>
    simp only [step] at h
    split at h
    · exact traced.schedule h
    · cases h
  | command command => exact traced.unlinked (other (by simp) (by simp))
  | nodeManager event => exact traced.unlinked (other (by simp) (by simp))
  | taskManager event =>
    cases event with
    | connected address => exact traced.unlinked (other (by simp) (by simp))
    | disconnect => exact traced.unlinked (other (by simp) (by simp))
    | message request =>
      cases request with
      | helloMessage => exact traced.unlinked (other (by simp) (by simp))
      | task batch => exact traced.unlinked (other (by simp) (by simp))
      | newJob id totalTasks data =>
        have hsent := g.send_unlinked (other (by simp) (by simp))
        simp only [step, processTaskManager, processNewJob, Except.ok.injEq, Prod.mk.injEq] at h
        have hnodes : s'.connectionManager.nodes = s.connectionManager.nodes.clear := by
          rw [← h.1]
          rfl
        rw [Post.note, hsent]
        refine traced.newJob fun w => ?_
        rw [hnodes, VecMap.get_clear]
  | worker event =>
    cases event with
    | disconnected w => exact traced.unlinked (other (by simp) (by simp))
    | connected info node =>
      obtain ⟨rfl, traced'⟩ := traced.connected honest h
      rw [Post.note, g.send_unlinked (.refl s)]
      exact traced'
    | message w response =>
      have unlinked := other (by simp) (by simp)
      cases response with
      | error error => exact traced.unlinked unlinked
      | result result =>
        rw [Post.note, g.send_unlinked unlinked]
        have traced' := traced.unlinked unlinked
        rw [g.send_unlinked unlinked] at traced'
        exact traced'.count honest.2 _

/-- In every run in which the nodes answer what they were asked, every result that is counted was
computed for the job that is current at that moment exactly when each of them comes over a
connection that was opened since that job started. -/
theorem run_counts_own {config : Config} {as : List Arrival} {g : Post}
    (run : Run (noted (arrive checks) Post.note) Honest (Scheduler.new config, .none) as out
      (s, g)) :
    (∀ r ∈ g.counted, r.origin = r.current) ↔ ∀ r ∈ g.counted, r.opened = some r.current := by
  have traced : s.Sound ∧ Traced s g := by
    refine run.preserves (I := fun p => p.1.Sound ∧ Traced p.1 p.2)
      ⟨sound_new config, .new config⟩ ?_
    intro p a q out hI honest taken
    obtain ⟨htaken, hnote⟩ := noted_ok.mp taken
    rw [hnote]
    exact ⟨(step_outcome hI.1 htaken).1, step_traced hI.1 hI.2 honest htaken⟩
  refine forall₂_congr fun r hr => ?_
  rw [traced.2.counted r hr, Option.some.injEq]

section SmallRuns

/-- A turn that brings no result: its origin does not matter. -/
def resultless (e : Event) : Arrival := ⟨e, 0, 0⟩

/-- A result of worker `w`, over its connection, of a task of job `job`. -/
def resultFor (job : Nat) (w : WorkerId) (t : TaskId) : Arrival := ⟨resultOf w t, w, job⟩

end SmallRuns

/-- Worker 2 connects for the second job, and completes its task. -/
theorem run_counts_own_small : ∃ out s g,
    Run (noted (arrive true) Post.note) Honest (Scheduler.new smallConfig, .none)
      ([jobOf 1, tasksOf [0], joinOf 1 1, .schedule, jobOf 1, tasksOf [0], joinOf 2 1,
        .schedule].map resultless ++ [resultFor 2 2 0]) out (s, g) ∧
      g.counted ≠ [] ∧ ∀ r ∈ g.counted, r.origin = r.current := by
  obtain ⟨⟨s, g⟩, out, run, h⟩ := exists_run (noted (arrive true) Post.note) Honest
    (Scheduler.new smallConfig, .none)
    ([jobOf 1, tasksOf [0], joinOf 1 1, .schedule, jobOf 1, tasksOf [0], joinOf 2 1,
      .schedule].map resultless ++ [resultFor 2 2 0])
    (fun r => decide (r.1.2.counted = [⟨2, some 2, 2⟩])) (by decide +kernel)
  have hcounted : g.counted = [⟨2, some 2, 2⟩] := of_decide_eq_true h
  refine ⟨out, s, g, run, by simp [hcounted], (run_counts_own run).mpr ?_⟩
  intro r hr
  rw [hcounted] at hr
  rw [List.mem_singleton.mp hr]

/-- Worker 1 completes the task of the first job when the second has started: its result is counted
for the second, and completes it. -/
theorem run_counts_own_fails : ¬∀ checks config as out s g,
    Run (noted (arrive checks) Post.note) Honest (Scheduler.new config, .none) as out (s, g) →
      ∀ r ∈ g.counted, r.origin = r.current := by
  intro hall
  obtain ⟨⟨s, g⟩, out, run, h⟩ := exists_run (noted (arrive true) Post.note) Honest
    (Scheduler.new smallConfig, .none)
    ([jobOf 1, tasksOf [0], joinOf 1 1, .schedule, jobOf 1, tasksOf [0]].map resultless ++
      [resultFor 1 1 0])
    (fun r => decide (r.1.2.counted = [⟨2, some 1, 1⟩])) (by decide +kernel)
  have hcounted : g.counted = [⟨2, some 1, 1⟩] := of_decide_eq_true h
  have hown := hall true smallConfig _ out s g run ⟨2, some 1, 1⟩ (by simp [hcounted])
  cases hown

end Scheduler
end GridServer
