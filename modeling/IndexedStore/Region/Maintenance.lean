import IndexedStore.Region.Mutation
import IndexedStore.Region.Creation

/-!
# Index maintenance

A mutation is applied to the indexes after it has changed the region and while its entry is locked
(`IndexManager::on_entry_event`). Around each step of that stands a checkpoint, at which a listener is told
where maintenance has arrived and may do anything to the state, such as running whole operations of the region.
A `Host` says where in a state a region lives and which listener is installed; the listener is looked up once
for a chain of steps (`hook::current`), so one installed meanwhile is heard from the next chain on.

In a synchronous region the mutation itself brings every target up to date. In an asynchronous region it
queues an update, and `workerStep` applies the oldest one to the indexes that are targets by then
(`maintenance::run_worker`).
-/

namespace IndexedStore

/-- Where index maintenance can be looked at, in the order it is passed (`hook::HookSpot`). -/
inductive Checkpoint where
  /-- An index is a target of mutations, and the scan that fills it has not begun. -/
  | beforeInitialScan
  /-- The scan is over, and the index is not published. -/
  | afterInitialScan
  /-- The index is published. -/
  | afterPublish
  /-- A mutation has its entry locked, and the targets have not been read. -/
  | maintenanceStart
  /-- One index is about to be brought up to date. -/
  | beforeIndexUpdate
  /-- One index has been brought up to date, with the entry still locked. -/
  | afterIndexUpdate
  /-- The worker has taken an update from the queue. -/
  | beforeQueuedUpdate
  /-- An index is no target any more, and its contents are still there. -/
  | afterUnregister
deriving Repr, DecidableEq

namespace Checkpoint

def number : Checkpoint → Nat
  | .beforeInitialScan => 1
  | .afterInitialScan => 2
  | .afterPublish => 3
  | .maintenanceStart => 4
  | .beforeIndexUpdate => 5
  | .afterIndexUpdate => 6
  | .beforeQueuedUpdate => 7
  | .afterUnregister => 8

def title : Checkpoint → String
  | .beforeInitialScan => "BeforeInitialScan"
  | .afterInitialScan => "AfterInitialScan"
  | .afterPublish => "AfterPublish"
  | .maintenanceStart => "MaintenanceStart"
  | .beforeIndexUpdate => "AfterEntryLockBeforeIndexUpdate"
  | .afterIndexUpdate => "AfterIndexUpdate"
  | .beforeQueuedUpdate => "AsyncBeforeApply"
  | .afterUnregister => "AfterUnregister"

def display (c : Checkpoint) : String := c.title ++ "(" ++ toString c.number ++ ")"

end Checkpoint

/-- Maintenance arrived at a checkpoint (`hook::HookContext`). -/
structure Arrival where
  checkpoint : Checkpoint
  region : String
  index : Option String
  key : Option Key
  /-- Whether the region's worker arrived, and not the caller of an operation. -/
  byWorker : Bool
deriving Repr

/-- What is told of arrivals, and may change the state (a `hook::MaintenanceHook`). -/
abbrev Listener (σ : Type) := Arrival → σ → σ

/-- A region inside a state, and the listener installed in that state, which `hook::current` captures. -/
structure Host (σ : Type) where
  region : σ → Region
  setRegion : Region → σ → σ
  listener : σ → Listener σ

namespace Region

/-- One index made to agree with an update (`maintenance::maintain`). -/
def updateIndex (r : Region) (id : IndexId) (update : Update) : Region :=
  { r with registry := r.registry.modify id fun ix => (ix.maintain update.key update.value).2 }

/-- An update put in the queue for the worker (`AsyncMaintenance::enqueue`). -/
def enqueue (r : Region) (update : Update) : Region :=
  { r with registry := r.registry.enqueue update }

/-- The region with the oldest queued update taken out. -/
def dequeued (r : Region) : Region :=
  { r with registry := { r.registry with queue := r.registry.queue.tail } }

/-- The region with its worker stopped (`AsyncMaintenance::shutdown`). -/
def stopWorker (r : Region) : Region :=
  { r with registry := { r.registry with workerRunning := false } }

end Region

namespace Host

variable {σ : Type}

/-- A region by itself. -/
def alone (listener : Region → Listener Region) : Host Region where
  region r := r
  setRegion r _ := r
  listener := listener

def modify (h : Host σ) (f : Region → Region) (s : σ) : σ := h.setRegion (f (h.region s)) s

/-- A function of the region, run on the state. -/
def run {α : Type} (h : Host σ) (f : Region → α × Region) (s : σ) : α × σ :=
  let (a, r) := f (h.region s)
  (a, h.setRegion r s)

/-- One target made to agree with an update, between its two checkpoints: a turn of the loop of
`maintenance::apply_to_indexes`. -/
def updateTarget (h : Host σ) (listen : Listener σ) (byWorker : Bool) (update : Update) (s : σ)
    (target : IndexId × Index) : σ :=
  let arrival (c : Checkpoint) : Arrival :=
    ⟨c, (h.region s).path, some target.2.name, some update.key, byWorker⟩
  let s := listen (arrival .beforeIndexUpdate) s
  let s := h.modify (·.updateIndex target.1 update) s
  listen (arrival .afterIndexUpdate) s

/-- Targets made to agree with an update, one after another (`maintenance::apply_to_indexes`). -/
def updateTargets (h : Host σ) (listen : Listener σ) (byWorker : Bool) (update : Update)
    (targets : List (IndexId × Index)) (s : σ) : σ :=
  targets.foldl (h.updateTarget listen byWorker update) s

/-- The indexes told of a mutation (`IndexManager::on_entry_event`). Evictions do not concern them, and without a
target nothing is even queued. The targets are read after the first checkpoint, under the lock of the entry: an
index begun later scans the entry's new value. -/
def notify (h : Host σ) (event : EntryEvent) (s : σ) : σ :=
  if event.operation = .evict then s
  else
    let listen := h.listener s
    let s := listen ⟨.maintenanceStart, (h.region s).path, none, some event.key, false⟩ s
    let region := h.region s
    let targets := region.registry.liveTargets
    let update : Update := ⟨event.key, event.new.value?⟩
    if targets.isEmpty then s
    else match region.settings.maintenance with
      | .synchronous => h.updateTargets listen false update targets s
      | .asynchronous => h.modify (·.enqueue update) s

/-- One step of the worker: the oldest queued update applied to the targets there are by now
(`maintenance::run_worker` at a `Task::Apply`). -/
def workerStep (h : Host σ) (s : σ) : σ :=
  match (h.region s).registry.queue with
  | [] => s
  | update :: _ =>
    let s := h.modify Region.dequeued s
    let listen := h.listener s
    let s := listen ⟨.beforeQueuedUpdate, (h.region s).path, none, some update.key, true⟩ s
    h.updateTargets listen true update (h.region s).registry.liveTargets s

/-- A number of steps of the worker. -/
def workerSteps (h : Host σ) : Nat → σ → σ
  | 0, s => s
  | n + 1, s => h.workerSteps n (h.workerStep s)

/-- The worker run until it has applied every update queued so far, which is what
`AsyncMaintenance::wait_for_pending` waits for. -/
def catchUp (h : Host σ) (s : σ) : σ := h.workerSteps (h.region s).registry.queue.length s

end Host

end IndexedStore
