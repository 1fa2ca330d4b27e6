import Mathlib
import InlaySql.Lib.Transition

/-!
# Scripts on a shared store

A script issues one command at a time and goes on with the answer. Several clients run
scripts on one store, and their commands interleave. What a command reads and changes is its
footprint, a set of cells of the store. As long as no command changes a cell another script in
progress has touched, nor touches a cell another one has changed, every script runs as if it
were alone: the store is what the scripts that succeeded leave when they run one after the
other, in the order in which they end.
-/

namespace InlaySql.Lib

/-- A computation that issues one command at a time. -/
inductive Script (Command : Type) (Answer : Command -> Type) (ε α : Type) where
  | done (value : α)
  | failed (error : ε)
  | call (command : Command) (next : Answer command -> Script Command Answer ε α)

/-- What runs a command. The choice is what its surroundings decide. -/
abbrev Machine (Command : Type) (Answer : Command -> Type) (Choice State : Type) :=
  (command : Command) -> Choice -> State -> Answer command × State

namespace Script

variable {Command Choice State ε α β : Type} {Answer : Command -> Type}

protected def bind (first : Script Command Answer ε α) (rest : α -> Script Command Answer ε β) :
    Script Command Answer ε β :=
  match first with
  | done value => rest value
  | failed error => failed error
  | call command next => call command fun answer => (next answer).bind rest

instance : Monad (Script Command Answer ε) where
  pure := done
  bind := Script.bind

/-- Issue one command and give its answer. -/
def ask (command : Command) : Script Command Answer ε (Answer command) := call command done

/-! ## A script on its own -/

/-- Alone on the store, the script succeeds with a value and leaves a state. -/
inductive Ends (machine : Machine Command Answer Choice State) :
    Script Command Answer ε α -> State -> α -> State -> Prop where
  | done {value state} : Ends machine (done value) state value state
  | call {command next state value final} (choice : Choice)
      (rest : Ends machine (next (machine command choice state).1)
        (machine command choice state).2 value final) :
      Ends machine (call command next) state value final

namespace Ends

variable {machine : Machine Command Answer Choice State} {state final : State}

theorem pure_iff {value result : α} :
    Ends machine (pure value : Script Command Answer ε α) state result final ↔
      result = value ∧ final = state := by
  constructor
  · intro ended
    cases ended
    exact ⟨rfl, rfl⟩
  · rintro ⟨rfl, rfl⟩
    exact .done

theorem failed_iff {error : ε} {result : α} :
    Ends machine (failed error : Script Command Answer ε α) state result final ↔ False :=
  ⟨nofun, nofun⟩

theorem ask_bind_iff {command : Command} {rest : Answer command -> Script Command Answer ε β}
    {result : β} :
    Ends machine (ask command >>= rest) state result final ↔
      ∃ choice, Ends machine (rest (machine command choice state).1)
        (machine command choice state).2 result final := by
  constructor
  · intro ended
    cases ended with
    | call choice later => exact ⟨choice, later⟩
  · rintro ⟨choice, later⟩
    exact .call choice later

theorem bind_iff {first : Script Command Answer ε α} {rest : α -> Script Command Answer ε β}
    {result : β} :
    Ends machine (first >>= rest) state result final ↔
      ∃ value between, Ends machine first state value between ∧
        Ends machine (rest value) between result final := by
  constructor
  · intro ended
    induction first generalizing state with
    | done value => exact ⟨value, state, .done, ended⟩
    | failed error => cases ended
    | call command next ih =>
      cases ended with
      | call choice later =>
        obtain ⟨value, between, one, more⟩ := ih _ later
        exact ⟨value, between, .call choice one, more⟩
  · rintro ⟨value, between, one, more⟩
    induction one with
    | done => exact more
    | call choice _ ih => exact .call choice (ih more)

theorem forM {γ : Type} {items : List γ} {body : γ -> Script Command Answer ε PUnit}
    (property : State -> Prop) {result : PUnit}
    (kept : ∀ item ∈ items, ∀ state value final, property state ->
      Ends machine (body item) state value final -> property final)
    (ended : Ends machine (items.forM body) state result final) (held : property state) :
    property final := by
  induction items generalizing state with
  | nil =>
    obtain ⟨-, rfl⟩ := pure_iff.1 ended
    exact held
  | cons item items ih =>
    obtain ⟨value, between, one, more⟩ := bind_iff.1 ended
    exact ih (fun other listed => kept other (List.mem_cons_of_mem item listed)) more
      (kept item List.mem_cons_self state value between held one)

end Ends

end Script

/-! ## Footprints -/

/-- The cells of a store, and which of them a command touches. -/
structure Footprint {Command Choice State : Type} {Answer : Command -> Type}
    (machine : Machine Command Answer Choice State) where
  Key : Type
  Content : Key -> Type
  cell : (key : Key) -> State -> Content key
  touched : Command -> Choice -> State -> Set Key
  /-- A cell that is not touched stays as it is. -/
  kept : ∀ {command choice state key}, key ∉ touched command choice state ->
    cell key (machine command choice state).2 = cell key state
  /-- The cells touched decide the answer, and what becomes of them. -/
  settled : ∀ {command choice state other},
    (∀ key ∈ touched command choice state, cell key other = cell key state) ->
      (machine command choice other).1 = (machine command choice state).1 ∧
      touched command choice other = touched command choice state ∧
      ∀ key ∈ touched command choice state,
        cell key (machine command choice other).2 = cell key (machine command choice state).2

namespace Footprint

variable {Command Choice State ε α : Type} {Answer : Command -> Type}
  {machine : Machine Command Answer Choice State} (footprint : Footprint machine)

/-- The cells of which a command changes the content. -/
def changed (command : Command) (choice : Choice) (state : State) : Set footprint.Key :=
  {key | footprint.cell key (machine command choice state).2 ≠ footprint.cell key state}

/-- Two states with the same content in these cells. -/
def AgreeOn (keys : Set footprint.Key) (state other : State) : Prop :=
  ∀ key ∈ keys, footprint.cell key other = footprint.cell key state

/-- Two states with the same content everywhere. -/
def Same (state other : State) : Prop := footprint.AgreeOn Set.univ state other

variable {footprint}

variable {command : Command} (choices : List Choice) (choice : Choice) {value : α}

theorem changed_subset {choice : Choice} {state : State} :
    footprint.changed command choice state ⊆ footprint.touched command choice state := by
  intro key moved
  by_contra outside
  exact moved (footprint.kept outside)

theorem changed_of_agreeOn {choice : Choice} {state other : State}
    (agree : footprint.AgreeOn (footprint.touched command choice state) state other) :
    footprint.changed command choice other = footprint.changed command choice state := by
  obtain ⟨-, touched, after⟩ := footprint.settled agree
  ext key
  by_cases inside : key ∈ footprint.touched command choice state
  · simp only [changed, Set.mem_ofPred_eq, after key inside, agree key inside]
  · have still : key ∉ footprint.changed command choice state :=
      fun moved => inside (changed_subset moved)
    have stillOther : key ∉ footprint.changed command choice other :=
      fun moved => inside (touched ▸ changed_subset moved)
    simp [still, stillOther]

variable (footprint)

/-! ## A script on its own, with its footprint -/

/-- How far a script has come, and the cells it has touched and changed on the way. -/
structure Course (ε α : Type) where
  rest : Script Command Answer ε α
  state : State
  touched : Set footprint.Key
  changed : Set footprint.Key

namespace Course

variable {footprint}

/-- The next command, if the script has not ended. -/
def advance (course : footprint.Course ε α) (choice : Choice) : footprint.Course ε α :=
  match course.rest with
  | .done _ => course
  | .failed _ => course
  | .call command next =>
    ⟨next (machine command choice course.state).1, (machine command choice course.state).2,
      course.touched ∪ footprint.touched command choice course.state,
      course.changed ∪ footprint.changed command choice course.state⟩

end Course

/-- A script on its own from a state, under these choices. -/
def course (script : Script Command Answer ε α) (choices : List Choice) (state : State) :
    footprint.Course ε α :=
  choices.foldl Course.advance ⟨script, state, ∅, ∅⟩

variable {footprint} {script : Script Command Answer ε α} {state other : State}

theorem course_append : footprint.course script (choices ++ [choice]) state =
      (footprint.course script choices state).advance choice := by
  simp [course, List.foldl_append]

section

variable {course : footprint.Course ε α}

theorem Course.advance_of_call {next : Answer command -> Script Command Answer ε α}
    (calls : course.rest = .call command next) :
    course.advance choice =
      ⟨next (machine command choice course.state).1, (machine command choice course.state).2,
        course.touched ∪ footprint.touched command choice course.state,
        course.changed ∪ footprint.changed command choice course.state⟩ := by
  rw [advance, calls]

theorem Course.advance_of_done (ended : course.rest = .done value) :
    course.advance choice = course := by
  rw [advance, ended]

theorem Course.advance_of_failed {error : ε} (ended : course.rest = .failed error) :
    course.advance choice = course := by
  rw [advance, ended]

end

theorem course_changed_subset : (footprint.course script choices state).changed ⊆
      (footprint.course script choices state).touched := by
  induction choices using List.reverseRecOn with
  | nil => exact Set.empty_subset _
  | append_singleton choices choice ih =>
    rw [course_append]
    cases calls : (footprint.course script choices state).rest with
    | done value => rwa [Course.advance_of_done choice calls]
    | failed error => rwa [Course.advance_of_failed choice calls]
    | call command next =>
      rw [Course.advance_of_call choice calls]
      exact Set.union_subset_union ih changed_subset

theorem course_kept {key : footprint.Key}
    (still : key ∉ (footprint.course script choices state).changed) :
    footprint.cell key (footprint.course script choices state).state =
      footprint.cell key state := by
  induction choices using List.reverseRecOn with
  | nil => rfl
  | append_singleton choices choice ih =>
    rw [course_append] at still ⊢
    cases calls : (footprint.course script choices state).rest with
    | done value =>
      rw [Course.advance_of_done choice calls] at still ⊢
      exact ih still
    | failed error =>
      rw [Course.advance_of_failed choice calls] at still ⊢
      exact ih still
    | call command next =>
      rw [Course.advance_of_call choice calls] at still ⊢
      obtain ⟨before, now⟩ := not_or.1 still
      exact (not_not.1 now).trans (ih before)

theorem course_settled
    (agree : footprint.AgreeOn (footprint.course script choices state).touched state other) :
    (footprint.course script choices other).rest = (footprint.course script choices state).rest ∧
      (footprint.course script choices other).touched =
        (footprint.course script choices state).touched ∧
      (footprint.course script choices other).changed =
        (footprint.course script choices state).changed ∧
      footprint.AgreeOn (footprint.course script choices state).touched
        (footprint.course script choices state).state
        (footprint.course script choices other).state := by
  induction choices using List.reverseRecOn with
  | nil => exact ⟨rfl, rfl, rfl, fun key inside => inside.elim⟩
  | append_singleton choices choice ih =>
    rw [course_append] at agree ⊢
    rw [course_append]
    cases calls : (footprint.course script choices state).rest with
    | done value =>
      rw [Course.advance_of_done choice calls] at agree ⊢
      obtain ⟨rest, more⟩ := ih agree
      rw [Course.advance_of_done choice (rest.trans calls)]
      exact ⟨rest, more⟩
    | failed error =>
      rw [Course.advance_of_failed choice calls] at agree ⊢
      obtain ⟨rest, more⟩ := ih agree
      rw [Course.advance_of_failed choice (rest.trans calls)]
      exact ⟨rest, more⟩
    | call command next =>
      rw [Course.advance_of_call choice calls] at agree ⊢
      obtain ⟨rest, touched, changed, after⟩ :=
        ih fun key inside => agree key (Set.mem_union_left _ inside)
      rw [Course.advance_of_call choice (rest.trans calls)]
      -- A cell outside what the script has touched so far is still that of the start.
      have now : ∀ key ∈ (footprint.course script choices state).touched ∪
          footprint.touched command choice (footprint.course script choices state).state,
          footprint.cell key (footprint.course script choices other).state =
            footprint.cell key (footprint.course script choices state).state := by
        intro key inside
        by_cases before : key ∈ (footprint.course script choices state).touched
        · exact after key before
        · have still : key ∉ (footprint.course script choices state).changed :=
            fun moved => before (course_changed_subset choices moved)
          rw [course_kept choices still, course_kept choices (changed ▸ still)]
          exact agree key inside
      have here : footprint.AgreeOn _ _ _ := fun key inside => now key (Set.mem_union_right _ inside)
      obtain ⟨answer, touches, settled⟩ := footprint.settled here
      refine ⟨by simp only [answer], by rw [touched, touches],
        by rw [changed, changed_of_agreeOn here], fun key inside => ?_⟩
      by_cases touching : key ∈
          footprint.touched command choice (footprint.course script choices state).state
      · exact settled key touching
      · rw [footprint.kept touching, footprint.kept (touches ▸ touching)]
        exact now key inside

theorem Course.ends_of_advance {course : footprint.Course ε α} {choice : Choice} {final : State}
    (ended : (course.advance choice).rest.Ends machine (course.advance choice).state value final) :
    course.rest.Ends machine course.state value final := by
  cases calls : course.rest with
  | done value => rwa [advance_of_done choice calls, calls] at ended
  | failed error => rwa [advance_of_failed choice calls, calls] at ended
  | call command next =>
    rw [advance_of_call choice calls] at ended
    exact .call choice ended

theorem ends_of_course_ends {final : State}
    (ended : (footprint.course script choices state).rest.Ends machine
      (footprint.course script choices state).state value final) :
    script.Ends machine state value final := by
  induction choices using List.reverseRecOn with
  | nil => exact ended
  | append_singleton choices choice ih =>
    rw [course_append] at ended
    exact ih (Course.ends_of_advance ended)

theorem ends_of_course (ended : (footprint.course script choices state).rest = .done value) :
    script.Ends machine state value (footprint.course script choices state).state :=
  ends_of_course_ends choices (by rw [ended]; exact .done)

/-! ## Scripts side by side -/

variable (footprint) (Task ε α : Type)

/-- A script in progress: what it was begun for, what remains of it, and the cells it has
touched and changed so far. -/
structure Progress where
  task : Task
  rest : Script Command Answer ε α
  touched : Set footprint.Key
  changed : Set footprint.Key

/-- A store on which clients run scripts, and the tasks that succeeded, in the order in which
they ended. -/
structure Shared (Client : Type) where
  store : State
  active : Client -> Option (footprint.Progress Task ε α)
  succeeded : List Task

variable {Task ε α} {Client : Type}

/-- What a client does next. -/
inductive Move (Client Task Choice : Type) where
  | begin (client : Client) (task : Task)
  | command (client : Client) (choice : Choice)
  | finish (client : Client)

namespace Shared

variable {footprint} [DecidableEq Client]

/-- The client is now here. -/
def setActive (shared : footprint.Shared Task ε α Client) (client : Client)
    (progress : Option (footprint.Progress Task ε α)) : footprint.Shared Task ε α Client :=
  { shared with active := Function.update shared.active client progress }

/-- The client's next command has run. -/
def issue (shared : footprint.Shared Task ε α Client) (client : Client)
    (progress : footprint.Progress Task ε α) (command : Command)
    (next : Answer command -> Script Command Answer ε α) (choice : Choice) :
    footprint.Shared Task ε α Client :=
  { shared.setActive client (some
      { progress with
        rest := next (machine command choice shared.store).1
        touched := progress.touched ∪ footprint.touched command choice shared.store
        changed := progress.changed ∪ footprint.changed command choice shared.store }) with
    store := (machine command choice shared.store).2 }

section Active

variable {shared : footprint.Shared Task ε α Client} {client other : Client}
  {progress : footprint.Progress Task ε α} {command : Command} {choice : Choice}
  {next : Answer command -> Script Command Answer ε α}

variable {now : Option (footprint.Progress Task ε α)}

theorem setActive_self : (shared.setActive client now).active client = now := by
  simp [setActive]

theorem setActive_of_ne (different : other ≠ client) :
    (shared.setActive client now).active other = shared.active other := by
  simp [setActive, different]

theorem issue_self : (shared.issue client progress command next choice).active client = some
    { progress with
      rest := next (machine command choice shared.store).1
      touched := progress.touched ∪ footprint.touched command choice shared.store
      changed := progress.changed ∪ footprint.changed command choice shared.store } :=
  setActive_self

theorem issue_of_ne (different : other ≠ client) :
    (shared.issue client progress command next choice).active other = shared.active other :=
  setActive_of_ne different

end Active

variable (script : Task -> Script Command Answer ε α)

/-- One move of one client. -/
inductive Step : footprint.Shared Task ε α Client -> Move Client Task Choice ->
    footprint.Shared Task ε α Client -> Prop where
  | begin {shared client task} (idle : shared.active client = none) :
      Step shared (.begin client task)
        (shared.setActive client (some ⟨task, script task, ∅, ∅⟩))
  | command {shared client progress command next} (choice : Choice)
      (running : shared.active client = some progress)
      (calls : progress.rest = .call command next) :
      Step shared (.command client choice) (shared.issue client progress command next choice)
  | succeed {shared client progress value} (running : shared.active client = some progress)
      (ended : progress.rest = .done value) :
      Step shared (.finish client)
        { shared.setActive client none with succeeded := shared.succeeded ++ [progress.task] }
  | fail {shared client progress error} (running : shared.active client = some progress)
      (ended : progress.rest = .failed error) :
      Step shared (.finish client) (shared.setActive client none)

/-- A command meets no script in progress: it changes no cell that another one has touched and
touches none that another one has changed. -/
def Clear (shared : footprint.Shared Task ε α Client) (client : Client) (command : Command)
    (choice : Choice) : Prop :=
  ∀ other rival, other ≠ client -> shared.active other = some rival ->
    Disjoint (footprint.touched command choice shared.store) rival.changed ∧
    Disjoint (footprint.changed command choice shared.store) rival.touched

/-- The move disturbs no script in progress: its command meets none of them, and does not turn
away a script that has changed a cell. -/
def Undisturbed (shared : footprint.Shared Task ε α Client) : Move Client Task Choice -> Prop
  | .command client choice => ∀ progress command next, shared.active client = some progress ->
      progress.rest = .call command next -> shared.Clear client command choice ∧
        ((progress.changed ∪ footprint.changed command choice shared.store).Nonempty ->
          ∀ error, next (machine command choice shared.store).1 ≠ .failed error)
  | .begin _ _ | .finish _ => True

/-- No script is in progress. -/
def Quiet (shared : footprint.Shared Task ε α Client) : Prop := ∀ client, shared.active client = none

/-- The tasks succeed one after the other, each alone on the store. -/
inductive InSequence (machine : Machine Command Answer Choice State)
    (script : Task -> Script Command Answer ε α) (start : State) : List Task -> State -> Prop where
  | nil : InSequence machine script start [] start
  | snoc {tasks before task value after} (prior : InSequence machine script start tasks before)
      (ended : (script task).Ends machine before value after) :
      InSequence machine script start (tasks ++ [task]) after

/-- On its own from the base, the script would be where it is now, and it would have left the
cells it has changed as they are in the store. -/
def Follows (script : Task -> Script Command Answer ε α) (base store : State)
    (progress : footprint.Progress Task ε α) : Prop :=
  ∃ choices, (footprint.course (script progress.task) choices base).rest = progress.rest ∧
    (footprint.course (script progress.task) choices base).touched = progress.touched ∧
    (footprint.course (script progress.task) choices base).changed = progress.changed ∧
    footprint.AgreeOn progress.changed store
      (footprint.course (script progress.task) choices base).state

/-- The scripts in progress run as if each were alone on the base, which the tasks that
succeeded left. -/
structure Separate (start base : State) (shared : footprint.Shared Task ε α Client) : Prop where
  sequence : InSequence machine script start shared.succeeded base
  follows : ∀ {client progress}, shared.active client = some progress ->
    Follows script base shared.store progress
  apart : ∀ {client other progress rival}, client ≠ other ->
    shared.active client = some progress -> shared.active other = some rival ->
    Disjoint progress.changed rival.touched
  still : ∀ {key}, (∀ client progress, shared.active client = some progress ->
    key ∉ progress.changed) -> footprint.cell key shared.store = footprint.cell key base
  harmless : ∀ {client progress error}, shared.active client = some progress ->
    progress.rest = .failed error -> progress.changed = ∅

variable {script} {start base : State} {shared : footprint.Shared Task ε α Client}
  {client : Client} {progress : footprint.Progress Task ε α}

theorem Follows.changed_subset {store : State} (follows : Follows script base store progress) :
    progress.changed ⊆ progress.touched := by
  obtain ⟨choices, -, touched, changed, -⟩ := follows
  rw [<- touched, <- changed]
  exact course_changed_subset choices

section

variable {store after : State} (follows : Follows script base store progress)

include follows

theorem Follows.of_store (same : footprint.AgreeOn progress.changed store after) :
    Follows script base after progress := by
  obtain ⟨choices, rest, touched, changed, agree⟩ := follows
  exact ⟨choices, rest, touched, changed, fun key inside =>
    (agree key inside).trans (same key inside).symm⟩

theorem Follows.of_base (same : footprint.AgreeOn progress.touched base after) :
    Follows script after store progress := by
  have within := follows.changed_subset
  obtain ⟨choices, rest, touched, changed, agree⟩ := follows
  obtain ⟨rest', touched', changed', agree'⟩ := course_settled choices (touched.symm ▸ same)
  refine ⟨choices, rest'.trans rest, touched'.trans touched, changed'.trans changed,
    fun key inside => ?_⟩
  rw [agree' key (touched.symm ▸ within inside)]
  exact agree key inside

end

namespace Separate

omit [DecidableEq Client] in
theorem initial (quiet : shared.Quiet) (none : shared.succeeded = []) :
    Separate script shared.store shared.store shared where
  sequence := none ▸ .nil
  follows running := by simp [quiet _] at running
  apart _ running := by simp [quiet _] at running
  still _ := rfl
  harmless running := by simp [quiet _] at running

theorem begin (separate : Separate script start base shared) (idle : shared.active client = none)
    (task : Task) :
    Separate script start base (shared.setActive client (some ⟨task, script task, ∅, ∅⟩)) where
  sequence := separate.sequence
  follows {other rival} running := by
    rcases eq_or_ne other client with rfl | different
    · obtain rfl := Option.some.inj (setActive_self.symm.trans running)
      exact ⟨[], rfl, rfl, rfl, fun key inside => inside.elim⟩
    · exact separate.follows ((setActive_of_ne different).symm.trans running)
  apart {one other left right} different running rival := by
    rcases eq_or_ne one client with rfl | unlike
    · obtain rfl := Option.some.inj (setActive_self.symm.trans running)
      exact Set.empty_disjoint _
    · rcases eq_or_ne other client with rfl | unlikeOther
      · obtain rfl := Option.some.inj (setActive_self.symm.trans rival)
        exact Set.disjoint_empty _
      · exact separate.apart different ((setActive_of_ne unlike).symm.trans running)
          ((setActive_of_ne unlikeOther).symm.trans rival)
  still {key} untouched := separate.still fun other rival running => by
    have different : other ≠ client := fun same => by simp [same, idle] at running
    exact untouched other rival ((setActive_of_ne different).trans running)
  harmless {other rival error} running := by
    rcases eq_or_ne other client with rfl | different
    · obtain rfl := Option.some.inj (setActive_self.symm.trans running)
      exact fun _ => rfl
    · exact separate.harmless ((setActive_of_ne different).symm.trans running)

section Command

variable {command : Command} {next : Answer command -> Script Command Answer ε α} {choice : Choice}

omit [DecidableEq Client] in
theorem agreeOn_touched (separate : Separate script start base shared)
    (running : shared.active client = some progress) {choices : List Choice}
    (changed : (footprint.course (script progress.task) choices base).changed = progress.changed)
    (agree : footprint.AgreeOn progress.changed shared.store
      (footprint.course (script progress.task) choices base).state)
    (clear : shared.Clear client command choice) :
    footprint.AgreeOn (footprint.touched command choice shared.store) shared.store
      (footprint.course (script progress.task) choices base).state := by
  intro key inside
  by_cases mine : key ∈ progress.changed
  · exact agree key mine
  · rw [course_kept choices (changed ▸ mine)]
    refine (separate.still fun other rival runs => ?_).symm
    rcases eq_or_ne other client with rfl | different
    · obtain rfl : progress = rival := by simpa [running] using runs
      exact mine
    · exact Set.disjoint_left.1 (clear other rival different runs).1 inside

omit [DecidableEq Client] in
theorem follows_command (separate : Separate script start base shared)
    (running : shared.active client = some progress) (calls : progress.rest = .call command next)
    (clear : shared.Clear client command choice) :
    Follows script base (machine command choice shared.store).2 { progress with
        rest := next (machine command choice shared.store).1
        touched := progress.touched ∪ footprint.touched command choice shared.store
        changed := progress.changed ∪ footprint.changed command choice shared.store } := by
  obtain ⟨choices, rest, touched, changed, agree⟩ := separate.follows running
  have here := separate.agreeOn_touched running changed agree clear
  obtain ⟨answer, touches, settled⟩ := footprint.settled here
  have more := Course.advance_of_call choice (rest.trans calls)
  rw [<- course_append] at more
  refine ⟨choices ++ [choice], ?_, ?_, ?_, fun key inside => ?_⟩
  · rw [more, answer]
  · rw [more, touches, touched]
  · rw [more, changed_of_agreeOn here, changed]
  · rw [more]
    by_cases touching : key ∈ footprint.touched command choice shared.store
    · exact settled key touching
    · rw [footprint.kept touching, footprint.kept (touches ▸ touching)]
      exact agree key (inside.resolve_right fun moved => touching (changed_subset moved))

theorem issue (separate : Separate script start base shared)
    (running : shared.active client = some progress) (calls : progress.rest = .call command next)
    (undisturbed : shared.Undisturbed (.command client choice : Move Client Task Choice)) :
    Separate script start base (shared.issue client progress command next choice) where
  sequence := separate.sequence
  follows {other rival} runs := by
    obtain ⟨clear, -⟩ := undisturbed progress command next running calls
    rcases eq_or_ne other client with rfl | different
    · obtain rfl := Option.some.inj (issue_self.symm.trans runs)
      exact separate.follows_command running calls clear
    · rw [issue_of_ne different] at runs
      have follows := separate.follows runs
      refine follows.of_store fun key inside => not_not.1 fun moved => ?_
      exact Set.disjoint_left.1 (clear other rival different runs).2 moved
        (follows.changed_subset inside)
  apart {one other left right} different runs rival := by
    obtain ⟨clear, -⟩ := undisturbed progress command next running calls
    rcases eq_or_ne one client with rfl | unlike
    · obtain rfl := Option.some.inj (issue_self.symm.trans runs)
      rw [issue_of_ne different.symm] at rival
      exact (separate.apart different running rival).union_left
        (clear other right different.symm rival).2
    · rw [issue_of_ne unlike] at runs
      rcases eq_or_ne other client with rfl | unlikeOther
      · obtain rfl := Option.some.inj (issue_self.symm.trans rival)
        exact (separate.apart different runs running).union_right
          (clear one left unlike runs).1.symm
      · rw [issue_of_ne unlikeOther] at rival
        exact separate.apart different runs rival
  still {key} untouched := by
    obtain ⟨before, now⟩ := not_or.1 (untouched client _ issue_self)
    refine (not_not.1 now).trans (separate.still fun other rival runs => ?_)
    rcases eq_or_ne other client with rfl | different
    · obtain rfl := Option.some.inj (running.symm.trans runs)
      exact before
    · exact untouched other rival ((issue_of_ne different).trans runs)
  harmless {other rival error} runs failed := by
    obtain ⟨-, goesOn⟩ := undisturbed progress command next running calls
    rcases eq_or_ne other client with rfl | different
    · obtain rfl := Option.some.inj (issue_self.symm.trans runs)
      exact Set.not_nonempty_iff_eq_empty.1 fun changed => goesOn changed error failed
    · exact separate.harmless ((issue_of_ne different).symm.trans runs) failed

end Command

theorem active_of_ended {other : Client} {rival : footprint.Progress Task ε α}
    (runs : (shared.setActive client none).active other = some rival) :
    other ≠ client ∧ shared.active other = some rival := by
  have different : other ≠ client := fun same => by
    rw [same, setActive_self] at runs
    cases runs
  exact ⟨different, (setActive_of_ne different).symm.trans runs⟩

theorem succeed {value : α} (separate : Separate script start base shared)
    (running : shared.active client = some progress) (ended : progress.rest = .done value) :
    ∃ after, Separate script start after
      { shared.setActive client none with succeeded := shared.succeeded ++ [progress.task] } := by
  obtain ⟨choices, rest, touched, changed, agree⟩ := separate.follows running
  let alone := footprint.course (script progress.task) choices base
  have kept : ∀ key, key ∉ progress.changed -> footprint.cell key alone.state =
      footprint.cell key base := fun key still => course_kept choices (changed ▸ still)
  refine ⟨alone.state, .snoc separate.sequence (ends_of_course choices (rest.trans ended)), ?_, ?_,
    fun {key} untouched => ?_, fun runs => separate.harmless (active_of_ended runs).2⟩
  · intro other rival runs
    obtain ⟨different, runs⟩ := active_of_ended runs
    exact (separate.follows runs).of_base fun key inside => kept key fun moved =>
      Set.disjoint_left.1 (separate.apart different.symm running runs) moved inside
  · intro one other left right different runs rival
    exact separate.apart different (active_of_ended runs).2 (active_of_ended rival).2
  · by_cases mine : key ∈ progress.changed
    · exact (agree key mine).symm
    · rw [kept key mine]
      refine separate.still fun other rival runs => ?_
      rcases eq_or_ne other client with rfl | different
      · obtain rfl := Option.some.inj (running.symm.trans runs)
        exact mine
      · exact untouched other rival ((setActive_of_ne different).trans runs)

theorem fail {error : ε} (separate : Separate script start base shared)
    (running : shared.active client = some progress) (ended : progress.rest = .failed error) :
    Separate script start base (shared.setActive client none) where
  sequence := separate.sequence
  follows runs := separate.follows (active_of_ended runs).2
  apart different runs rival :=
    separate.apart different (active_of_ended runs).2 (active_of_ended rival).2
  still {key} untouched := separate.still fun other rival runs => by
    rcases eq_or_ne other client with rfl | different
    · obtain rfl := Option.some.inj (running.symm.trans runs)
      simp [separate.harmless running ended]
    · exact untouched other rival ((setActive_of_ne different).trans runs)
  harmless runs := separate.harmless (active_of_ended runs).2

theorem step {move : Move Client Task Choice} {next : footprint.Shared Task ε α Client}
    (separate : Separate script start base shared) (step : Step script shared move next)
    (undisturbed : shared.Undisturbed move) : ∃ after, Separate script start after next := by
  cases step with
  | begin idle => exact ⟨base, separate.begin idle _⟩
  | command choice running calls => exact ⟨base, separate.issue running calls undisturbed⟩
  | succeed running ended => exact separate.succeed running ended
  | fail running ended => exact ⟨base, separate.fail running ended⟩

end Separate

/-! ## Runs -/

variable (script)

/-- The clients on a store that holds at first, with moves that meet the condition. -/
def system (holds : State -> Prop)
    (condition : footprint.Shared Task ε α Client -> Move Client Task Choice -> Prop) :
    System (footprint.Shared Task ε α Client) (Move Client Task Choice) where
  Initial shared := holds shared.store ∧ shared.Quiet ∧ shared.succeeded = []
  Step shared move next := Step script shared move next ∧ condition shared move

variable {script} {holds : State -> Prop} {moves : List (Move Client Task Choice)}

section

variable (run : (system script holds Undisturbed).Runs moves shared)

include run

theorem separate_of_runs :
    ∃ start base, holds start ∧ Separate script start base shared := by
  refine run.invariant (fun _ shared => ∃ start base, holds start ∧
    Separate script start base shared) ?_ ?_
  · rintro shared ⟨held, quiet, none⟩
    exact ⟨shared.store, shared.store, held, .initial quiet none⟩
  · rintro moves shared move next ⟨start, base, held, separate⟩ ⟨step, undisturbed⟩
    obtain ⟨after, more⟩ := separate.step step undisturbed
    exact ⟨start, after, held, more⟩

/-- When nothing is in progress, the store is what the tasks that succeeded leave one after the
other. -/
theorem inSequence_of_runs (quiet : shared.Quiet) :
    ∃ start after, holds start ∧ InSequence machine script start shared.succeeded after ∧
      footprint.Same after shared.store := by
  obtain ⟨start, base, held, separate⟩ := separate_of_runs run
  exact ⟨start, base, held, separate.sequence, fun key _ =>
    separate.still fun client progress running => by simp [quiet client] at running⟩

end

end Shared

end Footprint

end InlaySql.Lib
