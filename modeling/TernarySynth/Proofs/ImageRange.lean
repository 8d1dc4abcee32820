import TernarySynth.SourceText
import TernarySynth.ImageRun
import TernarySynth.Proofs.SearchWork
import TernarySynth.Proofs.TextLanguage

/-!
# Words in every run

A text that loads fills the whole memory with words, and every step keeps it so,
whatever is read and written and whether the step fails or not. So no cell is ever
found undecided, no pointer leaves its range, and whatever a step writes is in the cell
afterwards.
-/

namespace TernarySynth.Proofs.ImageRange

open TritWord CellCode MemoryImage TernarySynth.Cycle ByteStream ImageRun SourceText RandomSource
open StateTree Speculation BeamSearch TargetSearch
open PhaseEffect WordRange LoadedText TextLanguage SearchBalance SearchWork

section Faults

variable {registers : Registers} {read : Word → Option Word} {fault : Fault}

/-- An instruction that has been fetched is never refused. -/
theorem executeEffect_ne_refuse (instruction : Instruction) :
    executeEffect registers read instruction ≠ .refuse fault := by
  have hneeding : ∀ next : Word → Effect, (∀ value, next value ≠ .refuse fault) →
      needing read registers.d next ≠ .refuse fault := by
    intro next hnext
    rcases needing_cases read registers.d next with ⟨-, he⟩ | ⟨value, -, he⟩
    · rw [he]
      nofun
    · rw [he]
      exact hnext value
  cases instruction with
  | moveD => exact hneeding _ fun _ => nofun
  | jump => exact hneeding _ fun _ => nofun
  | rotateRight => exact hneeding _ fun _ => nofun
  | combine => exact hneeding _ fun _ => nofun
  | output => nofun
  | input => nofun
  | exit => nofun
  | noOp => nofun

/-- A phase is refused where the code cell cannot be decoded, or cannot be encrypted. -/
theorem effect_refuse {lenient : Bool} (h : effect lenient registers read = .refuse fault) :
    ∃ value, read registers.c = some value ∧
      ((registers.phase = .fetch ∧ decode lenient registers.c value = none ∧
          fault = .undecodable registers.c value) ∨
        (registers.phase = .advance ∧ encrypt value = none ∧
          fault = .unencryptable registers.c value)) := by
  unfold effect at h
  cases hp : registers.phase with
  | fetch =>
    simp only [hp] at h
    unfold fetchEffect at h
    rcases needing_cases read registers.c _ with ⟨-, he⟩ | ⟨value, hv, he⟩
    · cases he.symm.trans h
    · have h := he.symm.trans h
      cases hd : decode lenient registers.c value with
      | none =>
        simp only [hd] at h
        cases h
        exact ⟨value, hv, .inl ⟨rfl, hd, rfl⟩⟩
      | some instruction =>
        simp only [hd] at h
        exact absurd h (executeEffect_ne_refuse instruction)
  | advance =>
    simp only [hp] at h
    unfold advanceEffect at h
    rcases needing_cases read registers.c _ with ⟨-, he⟩ | ⟨value, hv, he⟩
    · cases he.symm.trans h
    · have h := he.symm.trans h
      cases hd : encrypt value with
      | none =>
        simp only [hd] at h
        cases h
        exact ⟨value, hv, .inr ⟨rfl, hd, rfl⟩⟩
      | some encrypted =>
        simp only [hd] at h
        split at h <;> cases h

end Faults

section Journals

/-- An image with a journal of what is written to it, the latest first. -/
structure Journal where
  /-- Addresses and values, also of writes that an image would ignore. -/
  entries : List (Word × Word)
  /-- The image itself. -/
  image : Image

instance : Memory Journal where
  read journal address := journal.image.read address
  write journal address value :=
    ⟨(address, value) :: journal.entries, journal.image.write address value⟩

/-- What an effect writes to memory. -/
def writesOf : Effect → List (Word × Word)
  | .store address value _ => [(address, value)]
  | _ => []

variable {P : Type} [Channel P]

/-- A journal changes nothing for the machine, and has what its effect writes. -/
theorem perform_journal (registers : Registers) (image : Image) (channel : P) (effect : Effect) :
    perform (Machine.mk registers (Journal.mk [] image) channel) effect =
      ((perform (Machine.mk registers image channel) effect).1,
        Machine.mk (perform (Machine.mk registers image channel) effect).2.registers
          (Journal.mk (writesOf effect)
            (perform (Machine.mk registers image channel) effect).2.memory)
          (perform (Machine.mk registers image channel) effect).2.channel) := by
  cases effect with
  | emit byte after =>
    simp only [perform, writeByte_eq, writesOf]
    split <;> rfl
  | take after =>
    simp only [perform, readValue_eq, writesOf]
    split <;> rfl
  | _ => rfl

end Journals

section Executions

variable {S : Type} [ByteSink S] {execution : Execution}

/-- The machine of an execution on a channel. -/
def machineOn (execution : Execution) (channel : StreamChannel S) :
    Machine Image (StreamChannel S) :=
  ⟨execution.registers, execution.image, channel⟩

/-- What an execution answers where its machine has this outcome. A machine of a full
memory has no cell to ask for. -/
def endOf : Outcome → StepEnd
  | .completed status => .completed status
  | .needsDecision address => .failed (.uninitialized address)
  | .failed fault => .failed fault
  | .overflowed => .overflowed

/-- A step of an execution is a step of its machine. -/
theorem step_eq_machine (execution : Execution) (channel : StreamChannel S) :
    let after := Cycle.step execution.lenient (machineOn execution channel)
    (execution.step channel).1 = endOf after.1 ∧
      (execution.step channel).2.1.registers = after.2.registers ∧
      (execution.step channel).2.1.image = after.2.memory ∧
      (execution.step channel).2.1.lenient = execution.lenient ∧
      (execution.step channel).2.2 = after.2.channel := by
  obtain ⟨registers, image, lenient, phases⟩ := execution
  dsimp only [machineOn]
  rw [Execution.step]
  cases hs : Cycle.step lenient (Machine.mk registers image channel) with
  | mk outcome after =>
    cases outcome <;> exact ⟨rfl, rfl, rfl, rfl, rfl⟩

/-- An input is a byte, or stands for the end of the input. -/
theorem input_lt (channel : StreamChannel S) {value : Word}
    (h : (Channel.input channel).1 = .ok value) : value < wordSize := by
  change (StreamChannel.input channel).1 = .ok value at h
  rw [StreamChannel.input] at h
  split at h
  next => cases h
  next =>
    split at h
    next byte _ _ =>
      have hvalue : StreamChannel.wordOf byte = value := Except.ok.inj h
      rw [← hvalue]
      cases byte with
      | none => decide
      | some byte => exact byte_lt byte
    next => cases h

/-- A stream fails with an error of its own only. -/
theorem stream_fault (channel : StreamChannel S) {fault : Fault} :
    ((Channel.input channel).1 = .error fault → ∃ error, fault = .io error) ∧
      ∀ byte, (Channel.output channel byte).1 = .error fault → ∃ error, fault = .io error := by
  have hreport : ∀ {α : Type} {answer : Except StreamError.IoError α},
      StreamChannel.report answer = .error fault → ∃ error, fault = .io error := by
    intro α answer h
    cases answer with
    | ok value => cases h
    | error error =>
      cases h
      exact ⟨error, rfl⟩
  constructor
  · intro h
    change (StreamChannel.input channel).1 = .error fault at h
    rw [StreamChannel.input] at h
    split at h
    next cause _ hf =>
      cases h
      have hflush := congrArg Prod.fst hf
      exact hreport hflush
    next =>
      split at h
      next => cases h
      next =>
        cases h
        exact ⟨_, rfl⟩
  · intro byte h
    exact hreport h

/-- What holds of an execution between two steps. -/
structure WordsOnly (execution : Execution) : Prop where
  /-- The image has as many cells as there are words. -/
  size_eq : execution.image.cells.size = wordSize
  /-- Each of them holds a word. -/
  cells : ∀ a < wordSize, ∃ value < wordSize, execution.image.read a = some value
  /-- The registers hold words. -/
  registers : Registers.InRange execution.registers

omit [ByteSink S] in
/-- The machine of such an execution is in the range. -/
theorem WordsOnly.machine (h : WordsOnly execution) (channel : StreamChannel S) :
    Machine.InRange (machineOn execution channel) := by
  refine ⟨h.registers, fun a v hread => ?_⟩
  have hread : execution.image.read a = some v := hread
  have ha := (Image.read_isSome_iff execution.image a).mp (by rw [hread]; rfl)
  obtain ⟨value, hlt, hvalue⟩ := h.cells a ha
  rw [hvalue] at hread
  exact Option.some.inj hread ▸ hlt

/-- A machine in the range is that of such an execution, since an image is full. -/
theorem wordsOnly_of_inRange (registers : Registers.InRange execution.registers)
    (memory : Holds (Memory.read execution.image)) : WordsOnly execution := by
  refine ⟨execution.image.size_eq, fun a ha => ?_, registers⟩
  obtain ⟨value, hread⟩ := Option.isSome_iff_exists.mp
    ((Image.read_isSome_iff execution.image a).mpr ha)
  exact ⟨value, memory a value hread, hread⟩

/-- A step with a journal of what it writes. -/
def journaled (execution : Execution) (channel : StreamChannel S) :
    Outcome × Machine Journal (StreamChannel S) :=
  Cycle.step execution.lenient ⟨execution.registers, ⟨[], execution.image⟩, channel⟩

/-- What a step does, whatever its channel does. -/
structure StepsSafely (execution : Execution) (channel : StreamChannel S) : Prop where
  /-- It leaves words only. -/
  next : WordsOnly (execution.step channel).2.1
  /-- It finds no undecided cell. -/
  decided : ∀ address, (execution.step channel).1 ≠ .failed (.uninitialized address)
  /-- No pointer leaves its range. -/
  inRange : (execution.step channel).1 ≠ .overflowed
  /-- With a journal it is the same step. -/
  same : endOf (journaled execution channel).1 = (execution.step channel).1 ∧
    (journaled execution channel).2.registers = (execution.step channel).2.1.registers ∧
    (journaled execution channel).2.memory.image = (execution.step channel).2.1.image ∧
    (journaled execution channel).2.channel = (execution.step channel).2.2
  /-- What it writes is a word, and is in a cell of the image afterwards. -/
  lands : ∀ a v, (a, v) ∈ (journaled execution channel).2.memory.entries →
    a < wordSize ∧ v < wordSize ∧ (execution.step channel).2.1.image.read a = some v

/-- A machine on a stream fails where its phase is refused, and where the stream fails. -/
theorem step_fault {lenient : Bool} {machine : Machine Image (StreamChannel S)} {fault : Fault}
    (h : (Cycle.step lenient machine).1 = .failed fault) :
    effect lenient machine.registers (Memory.read machine.memory) = .refuse fault ∨
      ∃ error, fault = .io error := by
  rw [step_eq_perform] at h
  cases he : effect lenient machine.registers (Memory.read machine.memory) with
  | refuse cause =>
    rw [he] at h
    cases h
    exact .inl rfl
  | emit byte after =>
    rw [he, perform, writeByte_eq] at h
    split at h
    next => cases h
    next cause channel ho =>
      cases h
      exact .inr ((stream_fault machine.channel).2 byte (congrArg Prod.fst ho))
  | take after =>
    rw [he, perform, readValue_eq] at h
    split at h
    next => cases h
    next cause channel hi =>
      cases h
      exact .inr ((stream_fault machine.channel).1 (congrArg Prod.fst hi))
  | wait address =>
    rw [he] at h
    cases h
  | overflow =>
    rw [he] at h
    cases h
  | halt =>
    rw [he] at h
    cases h
  | move after =>
    rw [he] at h
    cases h
  | store address value after =>
    rw [he] at h
    cases h

/-- So no step finds an undecided cell: the memory is full, and the pointers hold
words. -/
theorem WordsOnly.decided (h : WordsOnly execution) (channel : StreamChannel S) (address : Word) :
    (execution.step channel).1 ≠ .failed (.uninitialized address) := by
  intro hend
  rw [(step_eq_machine execution channel).1] at hend
  cases hout : (Cycle.step execution.lenient (machineOn execution channel)).1 with
  | completed status =>
    rw [hout] at hend
    cases hend
  | needsDecision other =>
    obtain ⟨-, hnone, hpointer⟩ := step_needsDecision hout
    have hlt : other < wordSize := by
      rcases hpointer with rfl | rfl
      · exact h.registers.c_lt
      · exact h.registers.d_lt
    obtain ⟨value, -, hread⟩ := h.cells other hlt
    cases hnone.symm.trans hread
  | failed fault =>
    rw [hout] at hend
    have hfault : fault = .uninitialized address := StepEnd.failed.inj hend
    rcases step_fault hout with hrefused | ⟨error, rfl⟩
    · obtain ⟨value, -, ⟨-, -, rfl⟩ | ⟨-, -, rfl⟩⟩ := effect_refuse hrefused <;> cases hfault
    · cases hfault
  | overflowed =>
    rw [hout] at hend
    cases hend

/-- A step with a journal is the step without it, and the journal has what it writes. -/
theorem journaled_eq (execution : Execution) (channel : StreamChannel S) :
    let after := Cycle.step execution.lenient (machineOn execution channel)
    journaled execution channel = (after.1, ⟨after.2.registers,
      ⟨writesOf (effect execution.lenient execution.registers (Memory.read execution.image)),
        after.2.memory⟩, after.2.channel⟩) := by
  dsimp only
  rw [journaled, step_eq_perform, step_eq_perform]
  exact perform_journal execution.registers execution.image channel _

/-- What a phase writes is a word, and is in a cell of the image afterwards. -/
theorem WordsOnly.lands (h : WordsOnly execution) (channel : StreamChannel S) {a v : Word}
    (hm : (a, v) ∈ writesOf
      (effect execution.lenient execution.registers (Memory.read execution.image))) :
    a < wordSize ∧ v < wordSize ∧
      (Cycle.step execution.lenient (machineOn execution channel)).2.memory.read a = some v := by
  have hrange := effect_inRange h.registers (h.machine channel).memory execution.lenient
  change InRange (effect execution.lenient execution.registers (Memory.read execution.image))
    at hrange
  rw [step_eq_perform]
  change _ ∧ _ ∧ (perform (machineOn execution channel) (effect execution.lenient
    execution.registers (Memory.read execution.image))).2.memory.read a = some v
  cases he : effect execution.lenient execution.registers (Memory.read execution.image) with
  | store address value after =>
    rw [he] at hm hrange
    cases List.mem_singleton.mp hm
    have ha := (Image.read_isSome_iff execution.image a).mp (effect_store_decided he)
    refine ⟨ha, hrange.1, ?_⟩
    change (execution.image.write a v).read a = some v
    rw [Image.read_write, if_pos rfl, if_pos ha]
  | _ =>
    rw [he] at hm
    cases hm

/-- Every step from words leads to words, and does nothing that it should not. -/
theorem WordsOnly.step (h : WordsOnly execution) (channel : StreamChannel S) :
    StepsSafely execution channel := by
  obtain ⟨hend, hregisters, himage, -, hchannel⟩ := step_eq_machine execution channel
  obtain ⟨hrange, hnever, -⟩ :=
    step_inRange (h.machine channel) (fun value hv => input_lt channel hv) execution.lenient
  have hjournal := journaled_eq execution channel
  refine ⟨wordsOnly_of_inRange ?_ ?_, h.decided channel, ?_, ?_, fun a v hm => ?_⟩
  · rw [hregisters]
    exact hrange.registers
  · rw [himage]
    exact hrange.memory
  · intro hover
    rw [hend] at hover
    cases hout : (Cycle.step execution.lenient (machineOn execution channel)).1 with
    | overflowed => exact hnever hout
    | _ =>
      rw [hout] at hover
      cases hover
  · rw [hjournal, hend, hregisters, himage, hchannel]
    exact ⟨rfl, rfl, rfl, rfl⟩
  · rw [hjournal] at hm
    rw [himage]
    exact h.lands channel hm

end Executions

section Runs

variable {S : Type} [ByteSink S] {execution execution' : Execution}

/-- An execution after one step, on whatever channel. -/
def StepsTo (S : Type) [ByteSink S] (execution execution' : Execution) : Prop :=
  ∃ channel : StreamChannel S, execution' = (execution.step channel).2.1

/-- After any number of steps there are words only. -/
theorem WordsOnly.steps (h : WordsOnly execution)
    (steps : Relation.ReflTransGen (StepsTo S) execution execution') : WordsOnly execution' := by
  induction steps with
  | refl => exact h
  | tail _ hstep ih =>
    obtain ⟨channel, rfl⟩ := hstep
    exact (ih.step channel).next

/-- A loaded text starts with words only. -/
theorem wordsOnly_of_load {source : SourceText.SourceText} {image : Image}
    (loads : source.load = .ok image) (lenient : Bool) :
    WordsOnly (Execution.ofImage lenient image) :=
  wordsOnly_of_inRange initial_inRange fun _ _ hread => (holds_of_load loads).2.lt hread

/-- A run is a number of steps, and ends neither at an undecided cell nor with a pointer
that has left its range. -/
theorem WordsOnly.run (h : WordsOnly execution) (limit : Nat) (channel : StreamChannel S) :
    Relation.ReflTransGen (StepsTo S) execution (execution.run limit channel).2.1 ∧
      (∀ address, (execution.run limit channel).1 ≠ .failed (.uninitialized address)) ∧
      (execution.run limit channel).1 ≠ .overflowed := by
  induction limit generalizing execution channel with
  | zero => exact ⟨.refl, fun _ => nofun, nofun⟩
  | succ limit ih =>
    have hsafe := h.step channel
    rw [Execution.run]
    cases hs : execution.step channel with
    | mk ending rest =>
      obtain ⟨next, channel'⟩ := rest
      have hstep : StepsTo S execution next := ⟨channel, by rw [hs]⟩
      have hnext : WordsOnly next := by
        have hwords := hsafe.next
        rwa [hs] at hwords
      have hends : (∀ address, ending ≠ .failed (.uninitialized address)) ∧
          ending ≠ .overflowed := by
        have hdecided := hsafe.decided
        have hrange := hsafe.inRange
        rw [hs] at hdecided hrange
        exact ⟨hdecided, hrange⟩
      cases ending with
      | completed status =>
        cases status with
        | running =>
          obtain ⟨hsteps, hrest⟩ := ih hnext channel'
          exact ⟨.head hstep hsteps, hrest⟩
        | exited => exact ⟨.single hstep, fun _ => nofun, nofun⟩
      | failed fault =>
        refine ⟨.single hstep, fun address he => ?_, nofun⟩
        cases he
        exact hends.1 address rfl
      | overflowed => exact absurd rfl hends.2

end Runs

/-- Words stay words. An execution of a text that loads has a full image of words and
registers that hold words after any number of steps, on whatever channels and however
they end; so no step finds an undecided cell, no pointer leaves its range and no write
is lost. In a search every node of every tree that it works on holds and writes words,
and no phase asks for a cell outside the memory. -/
theorem words_stay_words :
    (∀ {S : Type} [ByteSink S] (source : SourceText.SourceText) (image : Image) (lenient : Bool),
      source.load = .ok image → ∀ execution,
      Relation.ReflTransGen (StepsTo S) (.ofImage lenient image) execution →
        WordsOnly execution ∧ (∀ channel : StreamChannel S, StepsSafely execution channel) ∧
        ∀ (limit : Nat) (channel : StreamChannel S),
          Relation.ReflTransGen (StepsTo S) execution (execution.run limit channel).2.1 ∧
          (∀ address, (execution.run limit channel).1 ≠ .failed (.uninitialized address)) ∧
          (execution.run limit channel).1 ≠ .overflowed) ∧
    (∀ (target : Target) (tree : StateTree) (held : Multiset NodeId),
      Worked target.lenient tree held →
        (∀ id node, tree.node? id = .ok node → InBounds node) ∧
        ∀ id ∈ held,
          (∃ answer tree', transition target.lenient id tree = .ok answer tree') ∧
          (∀ address tree', transition target.lenient id tree = .ok (.needsDecision address) tree' →
            address < wordSize) ∧
          ∀ phases, Reaches target.lenient (tree, held) held
            (target.expandFrom id phases id tree)) ∧
    ∀ {G : Type} [RandomSource G] (target : Target) (searcher : Searcher StateTree NodeId G)
      (goals : Multiset NodeId), Course target searcher goals →
        Worked target.lenient searcher.state (searcher.frontier + goals) := by
  refine ⟨fun source image lenient loads execution steps => ?_, fun target tree held h => ?_,
    fun target searcher goals h => worked_of_course h⟩
  · have hwords := (wordsOnly_of_load loads lenient).steps steps
    exact ⟨hwords, hwords.step, hwords.run⟩
  · refine ⟨fun id node hn => inBounds_of_ground h.ground hn, fun id hm => ?_⟩
    obtain ⟨hanswers, hcells⟩ := transition_inBounds h.ground hm
    exact ⟨hanswers, hcells, fun phases => h.reaches hm phases⟩

/-- A program that reads a byte and exits has words only after an input that is refused,
and reads the end of the input when it is stepped again. In a search for "H" the root
asks for a cell of the memory. -/
theorem words_stay_words_of_refused_input :
    (∃ (image : Image) (failed : Execution),
      SourceText.load ⟨[117, 80]⟩ = .ok image ∧
      ((Execution.ofImage false image).step
        (StreamChannel.mk [.refused .timedOut] ScriptedSink.reliable)).1 = .failed (.io .timedOut) ∧
      ((Execution.ofImage false image).step
        (StreamChannel.mk [.refused .timedOut] ScriptedSink.reliable)).2.1 = failed ∧
      WordsOnly failed ∧
      StepsSafely failed (StreamChannel.mk [] ScriptedSink.reliable) ∧
      (failed.step (StreamChannel.mk [] ScriptedSink.reliable)).1 = .completed .running ∧
      (failed.step (StreamChannel.mk [] ScriptedSink.reliable)).2.1.registers.a = eofWord) ∧
    ∃ (searcher : Searcher StateTree NodeId Generator) (address : Word),
      Course ⟨[72], true, 0⟩ searcher 0 ∧ searcher.frontier = [0] ∧
      transition true 0 searcher.state = .ok (.needsDecision address) searcher.state ∧
      address < wordSize ∧ ∀ id node, searcher.state.node? id = .ok node → InBounds node := by
  constructor
  · obtain ⟨image, loads⟩ : ∃ image, SourceText.load ⟨[117, 80]⟩ = .ok image := ⟨_, rfl⟩
    have hbyte : (SourceText.mk [117, 80]).cells[0]? = some 117 := rfl
    have hread : image.read 0 = some 117 := (read_of_load loads hbyte).1
    -- The first phase takes an input, so it is the channel that settles the step.
    have htakes : effect false Registers.initial (Memory.read image) =
        .take fun value => ⟨value, 0, 0, .advance⟩ := by
      have hcode : Memory.read image Registers.initial.c = some 117 := hread
      simp only [effect, Registers.initial, fetchEffect, needing] at hcode ⊢
      rw [hcode]
      rfl
    have hstep : ∀ channel : StreamChannel ScriptedSink,
        Cycle.step false (Machine.mk Registers.initial image channel) =
          (Machine.mk Registers.initial image channel).readValue
            fun value => ⟨value, 0, 0, .advance⟩ := by
      intro channel
      rw [step_eq_perform, htakes]
      rfl
    obtain ⟨after, hfails⟩ : ∃ after, (Execution.ofImage false image).step
        (StreamChannel.mk [.refused .timedOut] ScriptedSink.reliable) =
          (.failed (.io .timedOut), .ofImage false image, after) := by
      rw [Execution.ofImage, Execution.step, hstep]
      exact ⟨_, rfl⟩
    obtain ⟨after', hreads⟩ : ∃ after', (Execution.ofImage false image).step
        (StreamChannel.mk [] ScriptedSink.reliable) =
          (.completed .running, ⟨⟨eofWord, 0, 0, .advance⟩, image, false, 1⟩, after') := by
      rw [Execution.ofImage, Execution.step, hstep]
      exact ⟨_, rfl⟩
    have hway : Relation.ReflTransGen (StepsTo ScriptedSink) (.ofImage false image)
        (.ofImage false image) := .single ⟨_, (congrArg (fun result => result.2.1) hfails).symm⟩
    obtain ⟨hwords, hsafe, -⟩ := words_stay_words.1 ⟨[117, 80]⟩ image false loads _ hway
    exact ⟨image, .ofImage false image, loads, by rw [hfails], by rw [hfails], hwords, hsafe _,
      by rw [hreads], by rw [hreads]⟩
  · let begun : Searcher StateTree NodeId Generator :=
      ⟨2, ⟨#[⟨.root, 1⟩], [], 1⟩, [0], 1, Generator.ofNumbers []⟩
    have hcourse : Course ⟨[72], true, 0⟩ begun 0 := course_of_room (by decide) _
    have hasks : transition true 0 begun.state = .ok (.needsDecision 0) begun.state := rfl
    obtain ⟨hnodes, hcells⟩ := words_stay_words.2.1 _ _ _ (words_stay_words.2.2 _ _ _ hcourse)
    have hheld : (0 : NodeId) ∈ (begun.frontier + 0 : Multiset NodeId) := by
      rw [add_zero]
      exact List.mem_cons_self
    exact ⟨begun, 0, hcourse, rfl, hasks, (hcells 0 hheld).2.1 0 _ hasks, hnodes⟩

end TernarySynth.Proofs.ImageRange
