import WorkStealing.Machine.Frame

/-!
# Steps of a frame

What the frame on top of a thread does next. A step makes at most one access to
what the threads share, and then goes on with some frames in place of this one
or fails. Frames that need other threads say so, and leave the rest to the
system.
-/

namespace WorkStealing
namespace Machine

namespace World

/-- The world after an operation of the scheduler; `next` goes on with its answer. -/
def schedule {β : Type} (w : World)
    (operation : Scheduler → Except Failure (Scheduler × β)) (next : World → β → Move) : Move :=
  match operation w.scheduler with
  | .error cause => .fail w cause
  | .ok (scheduler, answer) => next { w with scheduler } answer

/-- The world with one more job, whose number is the answer. -/
def addJob (w : World) (body : JobId → Code) : World × JobId :=
  let job := w.bodies.size
  ({ w with bodies := w.bodies.push (body job), flags := w.flags.push {} }, job)

def emit (w : World) (event : Event) : World :=
  { w with toMemory := w.toMemory.emit event }

/-- The world with one more trace record, if tracing is on. -/
def trace (w : World) (record : TraceRecord) : World :=
  { w with toMemory := w.toMemory.trace record }

end World

namespace Stop

/-- Whether the loop is to end now; the evaluation is numbered. -/
def holds (stop : Stop) (evaluation : Nat) (m : Memory) : Except Panic Bool :=
  match stop with
  | finished => .ok m.scheduler.finished
  | jobDone job => .ok (m.isDone job)
  | condition test => test evaluation m

/-- The end of a loop, after so many evaluations of its condition. -/
def leave (stop : Stop) (evaluations : Nat) (worker : Nat) (w : World) : World :=
  match stop with
  | finished => w.trace (.leaving worker)
  | jobDone _ => w
  | condition _ => w.emit (.waited evaluations)

end Stop

def LoopPoint.step (w : World) (identity : Option Nat) (worker : Nat) (stop : Stop)
    (evaluations : Nat) (point : LoopPoint) : Move :=
  let stay (w : World) (point : LoopPoint) : Move :=
    .go w identity [.loop point worker stop evaluations]
  let ask (ifNot : LoopPoint) : Move :=
    match stop.holds (evaluations + 1) w.toMemory with
    | .error cause => .fail w (.panic cause)
    | .ok true => .go (stop.leave (evaluations + 1) worker w) identity []
    | .ok false => .go w identity [.loop ifNot worker stop (evaluations + 1)]
  match point with
  | .poll => ask .pop
  | .pop =>
    w.schedule (·.pop worker) fun w answer =>
      match answer with
      | some job => stay w (.popped job)
      | none => stay w (.trial w.scheduler.stealTrials)
  | .popped job => w.schedule (·.bump worker .localPops) fun w _ => stay w (.dispatch job)
  | .trial 0 =>
    w.schedule (·.bump worker .idleSleeps) fun w _ => stay w (.trial w.scheduler.stealTrials)
  | .trial (left + 1) => ask (.aim left)
  | .aim left => w.schedule (·.loadAttempt worker) fun w attempt => stay w (.advance left attempt)
  | .advance left attempt =>
    w.schedule (·.storeAttempt worker (attempt + 1)) fun w _ =>
      match w.scheduler.victim worker attempt with
      | .error cause => .fail w (.panic cause)
      | .ok target => stay w (.count left target)
  | .count left target =>
    w.schedule (·.bump worker .stealAttempts) fun w _ => stay w (.steal left target)
  | .steal left target =>
    w.schedule (·.steal target) fun w answer =>
      match answer with
      | some job => stay w (.stolen job)
      | none => stay w (.trial left)
  | .stolen job => w.schedule (·.bump worker .steals) fun w _ => stay w (.dispatch job)
  | .dispatch job =>
    w.schedule (·.bump worker .jobsExecuted) fun w _ =>
      .go w identity [.execute job, .loop .poll worker stop evaluations]

/-- The frame of a wait: a worker loop for a worker that may run other jobs meanwhile, else a
frame that only polls. -/
def waitFrame (scheduler : Scheduler) (identity : Option Nat) (stop : Stop) : Frame :=
  match scheduler.config.waitPolicy, scheduler.workerOf identity with
  | .cooperative, some worker => .loop .poll worker stop 0
  | _, _ => .poll stop 0

/-- Refuses to go on where the push of a job that must be pushed was refused. -/
def mustPush (w : World) (outcome : Outcome) (next : Move) : Move :=
  match outcome with
  | .ok () => next
  | .error cause => .fail w (.error cause)

def ForkPoint.step (w : World) (identity : Option Nat) (worker : Nat) (right : JobId) (left : Code)
    (point : ForkPoint) : Move :=
  let stay (w : World) (point : ForkPoint) : Move :=
    .go w identity [.fork point worker right left]
  match point with
  | .publish =>
    w.schedule (·.push worker right) fun w outcome => mustPush w outcome (stay w .published)
  | .published =>
    w.schedule (·.bump worker .jobsSpawned) fun w _ =>
      .go w identity [.perform left, .fork .check worker right []]
  | .check => if w.isStarted right then stay w .stolenJoin else stay w .reclaim
  | .reclaim =>
    w.schedule (·.pop worker) fun w answer =>
      match answer with
      | some job => stay w (.reclaimed job)
      | none => stay w .stolenJoin
  | .reclaimed job =>
    w.schedule (·.bump worker .localPops) fun w _ =>
      if job = right then stay w .inlineJoin else stay w (.putBack job)
  | .inlineJoin =>
    w.schedule (·.bump worker .inlineJoins) fun w _ =>
      .go w identity [.execute right, .fork .closing worker right []]
  | .putBack job =>
    w.schedule (·.push worker job) fun w outcome => mustPush w outcome (stay w .putBackCount)
  | .putBackCount => w.schedule (·.bump worker .jobsSpawned) fun w _ => stay w .stolenJoin
  | .stolenJoin =>
    w.schedule (·.bump worker .stolenJoins) fun w _ =>
      .go w identity
        [waitFrame w.scheduler identity (.jobDone right), .fork .closing worker right []]
  | .closing => .go w identity []

/-- The event that reports how a run went. -/
def ranEvent (thunk : Bool) (outcome : Outcome) : Event :=
  if thunk then .ranThunk outcome else .ran outcome

/-- The frame of a region for which so many workers are asked. -/
def regionFrame (style : HostStyle) (threads : Nat) (identity : Option Nat) : Frame :=
  if style.atOnce then .recruit (style.workersOf threads)
  else .turns (style.workersOf threads) identity

def RunPoint.step (w : World) (identity : Option Nat) (job : JobId) (thunk : Bool)
    (point : RunPoint) : Move :=
  let stay (w : World) (point : RunPoint) : Move := .go w identity [.run point job thunk]
  let answer (w : World) (outcome : Outcome) : Move :=
    .go (w.emit (ranEvent thunk outcome)) identity []
  match point with
  | .claim threads =>
    let threads := if threads = 0 then w.scheduler.maxWorkers else threads
    let deques := w.scheduler.dequeCount
    if deques < threads then answer w (.error (.tooManyThreads threads deques))
    else if w.scheduler.running then answer w (.error .alreadyRunning)
    else stay { w with scheduler := { w.scheduler with running := true } } (.enqueue threads)
  | .enqueue threads =>
    w.schedule (·.push 0 job) fun w outcome => mustPush w outcome (stay w (.announce threads))
  | .announce threads =>
    let w := { w with scheduler := { w.scheduler with activeWorkers := threads } }
    stay (w.trace (.starting threads w.scheduler.dequeCount)) (.open threads)
  | .open threads =>
    .go w identity [regionFrame w.style threads identity, .run .clear job thunk]
  | .clear =>
    stay { w with scheduler := { w.scheduler with finished := false } } (.reset 0)
  | .reset deque =>
    if deque < w.scheduler.dequeCount then
      w.schedule (·.resetDeque deque) fun w _ => stay w (.reset (deque + 1))
    else stay w .release
  | .release =>
    stay { w with scheduler := { w.scheduler with running := false } } .complete
  | .complete =>
    if w.tracing then
      match w.scheduler.stats with
      | .error cause => .fail (w.trace .complete) (.panic cause)
      | .ok stats => answer ((w.trace .complete).trace (.statistics stats)) (.ok ())
    else answer w (.ok ())

/-- Spawns a job and then reports the outcome. -/
def spawnStep (w : World) (identity : Option Nat) (job : JobId) (report : Outcome → Event)
    (rest : Code) : Move :=
  match w.scheduler.workerOf identity with
  | none => .go (w.emit (report (.error .notInWorker))) identity [.perform rest]
  | some worker =>
    w.schedule (·.push worker job) fun w outcome =>
      mustPush w outcome
        (.go w identity
          [.perform (.bump worker .jobsSpawned :: .emit (report (.ok ())) :: rest)])

/-- Makes an operation of a deque that may not exist, and reports what it answers. -/
def dequeStep {β : Type} (w : World) (identity : Option Nat) (deque : Nat)
    (operation : Scheduler → Except Failure (Scheduler × β)) (report : Option β → Event)
    (note : World → β → World) (rest : Code) : Move :=
  if deque < w.scheduler.dequeCount then
    w.schedule operation fun w answer =>
      .go ((note w answer).emit (report (some answer))) identity [.perform rest]
  else .go (w.emit (report none)) identity [.perform rest]

/-- Puts a job that was popped into the hand. -/
def intoHand (w : World) (job : Option JobId) : World :=
  match job with
  | some job => { w with hand := job :: w.hand }
  | none => w

/-- A step of code: its first action. -/
def Action.step (w : World) (identity : Option Nat) (rest : Code) (action : Action) : Move :=
  let worker := w.scheduler.workerOf identity
  let goOn (w : World) : Move := .go w identity [.perform rest]
  let say (event : Event) : Move := goOn (w.emit event)
  match action with
  | .log label => say (.log label worker)
  | .store cell constant sources =>
    let value := sources.foldl (fun sum source => sum + w.cell source) constant
    goOn { w with cells := w.cells.setIfInBounds cell value }
  | .panic text => .fail w (.panic (.raised text))
  | .fork left right =>
    match worker with
    | none => .go w identity [.perform left, .perform right, .perform rest]
    | some worker =>
      let added := w.addJob fun job => Action.branchBody job right
      .go added.1 identity [.fork .publish worker added.2 left, .perform rest]
  | .repeated 0 _ => goOn w
  | .repeated (times + 1) body =>
    .go w identity [.perform body, .perform (.repeated times body :: rest)]
  | .asWorker other body => .go w other [.perform body, .restore identity, .perform rest]
  | .calculate calculation =>
    let first := w.cells.size
    let layout := calculation.layout first
    let initial := calculation.initialCells
    let cells := w.cells ++ initial.toArray ++
      Array.replicate (layout.free - first - initial.length) 0
    .go { w with cells } identity
      [.perform layout.code, .perform (.answer calculation first :: rest)]
  | .answer calculation first =>
    say (.calculated (calculation.answer first w.toMemory worker))
  | .execute job => .go w identity [.execute job, .perform rest]
  | .start job =>
    goOn { w with toMemory := w.setFlags job fun flags => { flags with started := true } }
  | .complete job =>
    goOn { w with toMemory := w.setFlags job fun flags => { flags with done := true } }
  | .began job => say (.began job worker)
  | .ended job => say (.ended job worker)
  | .joined => say (.joined worker)
  | .run job threads => .go w identity [.run (.claim threads) job false, .perform rest]
  | .runThunk body threads =>
    let added := w.addJob fun _ => Action.rootBody body
    .go added.1 identity [.run (.claim threads) added.2 true, .perform rest]
  | .spawn job => spawnStep w identity job (.spawned job) rest
  | .takeBack =>
    match worker with
    | none => say (.tookBack none)
    | some worker =>
      w.schedule (·.pop worker) fun w answer =>
        match answer with
        | none => .go (w.emit (.tookBack none)) identity [.perform rest]
        | some job =>
          .go (intoHand w (some job)) identity
            [.perform (.bump worker .localPops :: .emit (.tookBack (some job)) :: rest)]
  | .finish => goOn { w with scheduler := { w.scheduler with finished := true } }
  | .wait condition =>
    .go w identity [waitFrame w.scheduler identity (.condition condition), .perform rest]
  | .push deque job => dequeStep w identity deque (·.push deque job) .pushed (fun w _ => w) rest
  | .pop deque => dequeStep w identity deque (·.pop deque) .popped intoHand rest
  | .steal deque => dequeStep w identity deque (·.steal deque) .stole intoHand rest
  | .resetDeque deque =>
    dequeStep w identity deque (·.resetDeque deque) (fun found => .resetDeque found.isSome)
      (fun w _ => w) rest
  | .showDeque deque => say (.deque ((w.scheduler.deque? deque).map Deque.describe))
  | .handExecute =>
    match w.hand with
    | [] => say (.handExecuted none)
    | job :: hand =>
      .go (World.emit { w with hand } (.handExecuted (some job))) identity
        [.execute job, .perform rest]
  | .handSpawn =>
    match w.hand with
    | [] => say (.handSpawned none)
    | job :: hand =>
      spawnStep { w with hand } identity job (fun outcome => .handSpawned (some (job, outcome))) rest
  | .handPush deque =>
    match w.hand with
    | [] => say (.handPushed none)
    | job :: hand =>
      dequeStep { w with hand } identity deque (·.push deque job)
        (fun outcome => .handPushed (some (job, outcome))) (fun w _ => w) rest
  | .stats =>
    match w.scheduler.stats with
    | .error cause => .fail w (.panic cause)
    | .ok stats => say (.stats stats)
  | .resetStats =>
    goOn (World.emit { w with scheduler := w.scheduler.resetStats } .statsReset)
  | .info =>
    say (.info w.scheduler.dequeCount w.scheduler.maxWorkers w.scheduler.activeWorkers
      w.scheduler.running worker)
  | .describe => say (.described w.scheduler.describe)
  | .bump place counter => w.schedule (·.bump place counter) fun w _ => goOn w
  | .emit event => say event

/-- A step of the frame on top of a thread that says of itself who it is. -/
def Frame.step (w : World) (identity : Option Nat) : Frame → Move
  | .perform [] => .go w identity []
  | .perform (action :: rest) => Action.step w identity rest action
  | .execute job =>
    match w.flags[job]?, w.bodies[job]? with
    | some flags, some body =>
      if flags.taken then .fail w (.panic .jobExecutedTwice)
      else
        .go { w with toMemory := w.setFlags job fun flags => { flags with taken := true } }
          identity [.perform body, .guarded job]
    | _, _ => .fail w (.panic .jobExecutedTwice)
  | .guarded _ => .go w identity []
  | .fork point worker right left => point.step w identity worker right left
  | .loop point worker stop evaluations => point.step w identity worker stop evaluations
  | .poll stop evaluations =>
    match stop.holds (evaluations + 1) w.toMemory with
    | .error cause => .fail w (.panic cause)
    | .ok true => .go (stop.leave (evaluations + 1) 0 w) identity []
    | .ok false => .go w identity [.poll stop (evaluations + 1)]
  | .run point job thunk => point.step w identity job thunk
  | .turns [] outer => .go w outer []
  | .turns (worker :: pending) outer =>
    .go w (some worker) [.loop .poll worker .finished 0, .turns pending outer]
  | .restore outer => .go w outer []
  | .recruit workers => .recruit w workers
  | .crew threads outer => .go w outer [.disband threads none]
  | .disband threads pending => .await w threads pending

end Machine
end WorkStealing
