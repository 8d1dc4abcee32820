import TernarySynth.Proofs.ExpansionLines
import TernarySynth.Proofs.QuietRun

/-!
# Expansions by whole outputs

An expansion looks only at the last byte of an output. That is enough: a phase writes one
byte at most, every byte before it was looked at when it was the last one, and a decision
writes none. So an expansion answers what it would if the whole output were compared with
the target after every phase.
-/

namespace TernarySynth.Proofs.PlainExpansion

open TritWord CellCode MemoryImage SparseMemory TernarySynth.Cycle Transcript StateTree
open BeamSearch TargetSearch
open CodeValues PhaseEffect LateDecision TreeLine LineMachine WordRange ExploredLine Lookahead
open NodeExpansion TargetLedger ExpansionEnd ExpansionLines QuietRun

variable {target : Target} {machine next last other : LineMachine}

section Outputs

variable {output : List UInt8}

/-- Whether an output is the beginning of the target, without regard to the case of
letters. -/
def Begins (target : Target) (output : List UInt8) : Prop :=
  output.map foldCase <+: target.bytes.map foldCase

/-- The beginning of a beginning is one. -/
theorem Begins.of_prefix {longer : List UInt8} (h : Begins target longer)
    (hp : output <+: longer) : Begins target output :=
  (hp.map foldCase).trans h

/-- An output that is the whole target begins it. -/
theorem begins_of_isMet (h : target.isMet output = true) : Begins target output := by
  rw [Target.isMet, sameLetters, beq_iff_eq] at h
  rw [Begins, h]

/-- An output is on track if the target has its last byte in the same place. -/
theorem onTrack_append (output : List UInt8) (byte : UInt8) :
    target.onTrack (output ++ [byte]) = true ↔
      (target.bytes.map foldCase)[output.length]? = some (foldCase byte) := by
  unfold Target.onTrack
  rw [List.getLast?_concat, List.length_append, List.length_singleton, Nat.add_sub_cancel,
    List.getElem?_map]
  cases target.bytes[output.length]? with
  | none => exact iff_of_false Bool.false_ne_true nofun
  | some wanted => rw [beq_iff_eq, Option.map_some, Option.some_inj, eq_comm]

/-- An output begins the target if it does without its last byte, and the target has this
byte in the same place. -/
theorem begins_append (output : List UInt8) (byte : UInt8) :
    Begins target (output ++ [byte]) ↔ Begins target output ∧
      (target.bytes.map foldCase)[output.length]? = some (foldCase byte) := by
  unfold Begins
  rw [List.map_append, List.map_singleton]
  constructor
  · rintro ⟨rest, hrest⟩
    rw [List.append_assoc] at hrest
    refine ⟨⟨_, hrest⟩, ?_⟩
    rw [← hrest, List.getElem?_append_right (by rw [List.length_map]), List.length_map,
      Nat.sub_self]
    rfl
  · rintro ⟨⟨rest, hrest⟩, hbyte⟩
    rw [← hrest, List.getElem?_append_right (by rw [List.length_map]), List.length_map,
      Nat.sub_self] at hbyte
    rw [← hrest, List.prefix_append_right_inj]
    cases rest with
    | nil => cases hbyte
    | cons first rest =>
      cases hbyte
      exact ⟨rest, rfl⟩

/-- While the output begins the target, the phase after it is on track if and only if its
output begins the target too. -/
theorem onTrack_iff_begins (h : Begins target machine.channel.output) (lenient : Bool) :
    target.onTrack (step lenient machine).2.channel.output = true ↔
      Begins target (step lenient machine).2.channel.output := by
  rcases step_output lenient machine with hsame | ⟨byte, hmore⟩
  · rw [hsame]
    refine iff_of_true ?_ h
    rcases List.eq_nil_or_concat machine.channel.output with hnil | ⟨first, byte, hlast⟩
    · rw [hnil]
      rfl
    · rw [hlast, List.concat_eq_append] at h ⊢
      exact (onTrack_append first byte).mpr ((begins_append first byte).mp h).2
  · rw [hmore, onTrack_append, begins_append]
    exact (and_iff_right h).symm

end Outputs

section Runs

variable {lenient : Bool} {allowed : List UInt8 → Prop}

/-- A machine runs to another one: some phases complete, and every output on the way is
allowed. -/
inductive RunsTo (lenient : Bool) (allowed : List UInt8 → Prop) :
    LineMachine → LineMachine → Prop where
  /-- No phase is run. -/
  | here {machine : LineMachine} : RunsTo lenient allowed machine machine
  /-- The next phase completes with an output that is allowed, and the run goes on. -/
  | on {machine next last : LineMachine} (runs : step lenient machine = (.completed .running, next))
      (allows : allowed next.channel.output) (rest : RunsTo lenient allowed next last) :
      RunsTo lenient allowed machine last

/-- A run takes nothing back of what has been written. -/
theorem RunsTo.output_prefix (h : RunsTo lenient allowed machine last) :
    machine.channel.output <+: last.channel.output := by
  induction h with
  | here => exact List.prefix_refl _
  | @on machine next last runs allows rest ih =>
    have hstep := step_output_prefix lenient machine
    rw [runs] at hstep
    exact hstep.trans ih

/-- So where a run ends in a beginning of the target, every output on the way is one. -/
theorem RunsTo.begins (h : RunsTo lenient allowed machine last)
    (hlast : Begins target last.channel.output) :
    RunsTo lenient (Begins target) machine last := by
  induction h with
  | here => exact .here
  | on runs allows rest ih => exact .on runs (hlast.of_prefix rest.output_prefix) (ih hlast)

/-- A run from an allowed output comes to one. -/
theorem RunsTo.allows_last (h : RunsTo lenient allowed machine last)
    (start : allowed machine.channel.output) : allowed last.channel.output := by
  induction h with
  | here => exact start
  | on runs allows rest ih => exact ih allows

/-- A run is one without any condition. -/
theorem RunsTo.unchecked (h : RunsTo lenient allowed machine last) :
    RunsTo lenient (fun _ => True) machine last := by
  induction h with
  | here => exact .here
  | on runs allows rest ih => exact .on runs trivial ih

/-- Alike machines run alike. -/
theorem RunsTo.alike (h : RunsTo lenient allowed machine last) (ha : Alike machine other) :
    ∃ last', RunsTo lenient allowed other last' ∧ Alike last last' := by
  induction h generalizing other with
  | here => exact ⟨other, .here, ha⟩
  | @on machine next last runs allows rest ih =>
    obtain ⟨hout, hnext⟩ := ha.step lenient
    rw [runs] at hout hnext
    obtain ⟨last', hrest, hlast⟩ := ih hnext
    have hruns : step lenient other = (.completed .running, (step lenient other).2) :=
      Prod.ext hout rfl
    refine ⟨last', .on hruns ?_ hrest, hlast⟩
    rw [hnext.channel_eq]
    exact allows

/-- A run by whole outputs stops here: the next phase does not complete, or its output does
not begin the target. -/
def Stuck (target : Target) (machine : LineMachine) : Prop :=
  ∀ next, step target.lenient machine = (.completed .running, next) →
    ¬Begins target next.channel.output

/-- It stops at one machine only. -/
theorem RunsTo.unique (h : RunsTo target.lenient (Begins target) machine last)
    (hlast : Stuck target last) (h' : RunsTo target.lenient (Begins target) machine other)
    (hother : Stuck target other) : last = other := by
  induction h with
  | here =>
    cases h' with
    | here => rfl
    | on runs allows rest => exact absurd allows (hlast _ runs)
  | on runs allows rest ih =>
    cases h' with
    | here => exact absurd allows (hother _ runs)
    | on runs' allows' rest' =>
      cases runs.symm.trans runs'
      exact ih hlast rest'

/-- Looking ahead is running by whole outputs. -/
theorem runsTo_of_ahead (h : Begins target machine.channel.output) {phases : Nat}
    (ha : ahead target phases machine = some last) :
    RunsTo target.lenient (Begins target) machine last ∧ Begins target last.channel.output := by
  induction phases generalizing machine with
  | zero =>
    cases ha
    exact ⟨.here, h⟩
  | succ phases ih =>
    rw [ahead, Option.bind_eq_some_iff] at ha
    obtain ⟨next, ho, ha⟩ := ha
    obtain ⟨hs, ht⟩ := onward_eq_some.mp ho
    have hnext : Begins target next.channel.output := by
      have hiff := onTrack_iff_begins h target.lenient
      rw [hs] at hiff
      exact hiff.mp ht
    obtain ⟨hruns, hlast⟩ := ih hnext ha
    exact ⟨.on hs hnext hruns, hlast⟩

/-- Where it does not go on, neither does the run. -/
theorem stuck_of_onward (h : Begins target machine.channel.output)
    (ho : onward target machine = none) : Stuck target machine := by
  intro next hs hbegins
  have hiff := onTrack_iff_begins h target.lenient
  rw [hs] at hiff
  cases (onward_eq_some.mpr ⟨hs, hiff.mpr hbegins⟩).symm.trans ho

end Runs

section Ends

variable {address : Word}

/-- The run exits having printed the target. Nothing is asked of the outputs on the way. -/
structure Succeeds (target : Target) (machine last : LineMachine) : Prop where
  /-- Some phases complete. -/
  runs : RunsTo target.lenient (fun _ => True) machine last
  /-- The next one exits. -/
  exits : (step target.lenient last).1 = .completed .exited
  /-- The output is the target, without regard to the case of letters. -/
  met : sameLetters last.channel.output target.bytes = true

/-- The run comes to an undecided cell, and every output until there begins the target. -/
structure Branches (target : Target) (machine : LineMachine) (address : Word)
    (last : LineMachine) : Prop where
  /-- Some phases complete with beginnings of the target. -/
  runs : RunsTo target.lenient (Begins target) machine last
  /-- The next one reads the cell. -/
  needs : (step target.lenient last).1 = .needsDecision address

/-- A machine of which nothing can come. -/
inductive Hopeless (target : Target) (machine : LineMachine) : Prop where
  /-- Its phase fails; an input does, since there is none. -/
  | fails {fault : Fault} (failed : (step target.lenient machine).1 = .failed fault)
  /-- It exits with another output. -/
  | exits (exited : (step target.lenient machine).1 = .completed .exited)
      (other : sameLetters machine.channel.output target.bytes = false)
  /-- Its phase completes with an output that does not begin the target: another byte, or one
  too many. -/
  | strays {next : LineMachine} (runs : step target.lenient machine = (.completed .running, next))
      (other : ¬Begins target next.channel.output)

/-- The run comes to nothing, and every output until there begins the target. -/
structure Dies (target : Target) (machine last : LineMachine) : Prop where
  /-- Some phases complete with beginnings of the target. -/
  runs : RunsTo target.lenient (Begins target) machine last
  /-- The next one leads to nothing. -/
  hopeless : Hopeless target last

/-- Where a run by whole outputs stops, and what is made of it there. -/
structure Meets (target : Target) (machine last : LineMachine) (found : Fate) : Prop where
  /-- It comes to this machine. -/
  runs : RunsTo target.lenient (Begins target) machine last
  /-- It stops there. -/
  stuck : Stuck target last
  /-- This is made of it. -/
  settles : settle target last = found

/-- There is one such place. -/
theorem Meets.unique {found found' : Fate} (h : Meets target machine last found)
    (h' : Meets target machine other found') : last = other ∧ found = found' := by
  obtain rfl := h.runs.unique h.stuck h'.runs h'.stuck
  exact ⟨rfl, h.settles.symm.trans h'.settles⟩

/-- A phase that does not complete stops the run. -/
theorem stuck_of_stops (h : (step target.lenient machine).1 ≠ .completed .running) :
    Stuck target machine := by
  intro next hs
  rw [hs] at h
  exact absurd rfl h

/-- A run that succeeds meets its success: all its outputs are beginnings of the last. -/
theorem Succeeds.meets (h : Succeeds target machine last) :
    Meets target machine last (.succeeds last) := by
  refine ⟨h.runs.begins (begins_of_isMet h.met), stuck_of_stops ?_, ?_⟩
  · rw [h.exits]
    nofun
  · rw [settle, h.exits]
    exact if_pos h.met

/-- A run that branches meets the cell that it asks for. -/
theorem Branches.meets (h : Branches target machine address last) :
    Meets target machine last (.asks address last) := by
  refine ⟨h.runs, stuck_of_stops ?_, ?_⟩
  · rw [h.needs]
    nofun
  · rw [settle, h.needs]

/-- A run that comes to nothing meets its end. -/
theorem Dies.meets (h : Dies target machine last) : Meets target machine last .dies := by
  obtain ⟨runs, hopeless⟩ := h
  cases hopeless with
  | fails failed =>
    refine ⟨runs, stuck_of_stops ?_, ?_⟩
    · rw [failed]
      intro running
      cases running
    · rw [settle, failed]
  | exits exited other =>
    refine ⟨runs, stuck_of_stops ?_, ?_⟩
    · rw [exited]
      intro running
      cases running
    · rw [settle, exited]
      exact if_neg (ne_true_of_eq_false other)
  | strays strays other =>
    refine ⟨runs, fun next hs => ?_, ?_⟩
    · cases strays.symm.trans hs
      exact other
    · rw [settle, strays]

/-- What a run meets is one of the three. -/
theorem Meets.cases {found : Fate} (h : Meets target machine last found)
    (inRange : (step target.lenient last).1 ≠ .overflowed) :
    (found = .succeeds last ∧ Succeeds target machine last) ∨
      (∃ address, found = .asks address last ∧ Branches target machine address last) ∨
      (found = .dies ∧ Dies target machine last) := by
  obtain ⟨runs, stuck, rfl⟩ := h
  rcases hs : step target.lenient last with ⟨outcome, next⟩
  have hout : (step target.lenient last).1 = outcome := congrArg Prod.fst hs
  rw [settle, hout]
  cases outcome with
  | completed status =>
    cases status with
    | running => exact .inr (.inr ⟨rfl, runs, .strays hs (stuck next hs)⟩)
    | exited =>
      dsimp only
      cases hmet : target.isMet last.channel.output with
      | true => exact .inl ⟨rfl, runs.unchecked, hout, hmet⟩
      | false => exact .inr (.inr ⟨rfl, runs, .exits hout hmet⟩)
  | needsDecision address => exact .inr (.inl ⟨address, rfl, runs, hout⟩)
  | failed fault => exact .inr (.inr ⟨rfl, runs, .fails hout⟩)
  | overflowed => exact absurd hout inRange

/-- An alike machine succeeds alike. -/
theorem Succeeds.alike (h : Succeeds target machine last) (ha : Alike machine other) :
    ∃ last', Succeeds target other last' ∧ Alike last last' := by
  obtain ⟨last', hruns, hlast⟩ := h.runs.alike ha
  refine ⟨last', ⟨hruns, (hlast.step target.lenient).1.trans h.exits, ?_⟩, hlast⟩
  rw [hlast.channel_eq]
  exact h.met

/-- An alike machine branches alike. -/
theorem Branches.alike (h : Branches target machine address last) (ha : Alike machine other) :
    ∃ last', Branches target other address last' ∧ Alike last last' := by
  obtain ⟨last', hruns, hlast⟩ := h.runs.alike ha
  exact ⟨last', ⟨hruns, (hlast.step target.lenient).1.trans h.needs⟩, hlast⟩

/-- Nothing comes of an alike machine either. -/
theorem Dies.alike (h : Dies target machine last) (ha : Alike machine other) :
    ∃ last', Dies target other last' := by
  obtain ⟨last', hruns, hlast⟩ := h.runs.alike ha
  obtain ⟨hout, hnext⟩ := hlast.step target.lenient
  refine ⟨last', hruns, ?_⟩
  cases h.hopeless with
  | fails failed => exact .fails (hout.trans failed)
  | exits exited other =>
    refine .exits (hout.trans exited) ?_
    rw [hlast.channel_eq]
    exact other
  | strays runs other =>
    rw [runs] at hout hnext
    have hruns : step target.lenient last' = (.completed .running, (step target.lenient last').2) :=
      Prod.ext hout rfl
    refine .strays hruns ?_
    rw [hnext.channel_eq]
    exact other

end Ends

section Answers

variable {tree tree' : StateTree} {held : Multiset NodeId} {id : NodeId}
variable {line : List (NodeId × Node)} {expansion : Expansion NodeId}

/-- A machine that is alike to one in the state of a node is in it too. -/
theorem stands_of_alike (h : Stands tree id machine) (ha : Alike machine other) :
    Stands tree id other := by
  obtain ⟨⟨node, hn, hregisters, hchannel⟩, hresolve⟩ := h
  refine ⟨⟨node, hn, ha.registers_eq.trans hregisters, ha.channel_eq.trans hchannel⟩, fun a => ?_⟩
  rw [ha.read_eq]
  exact hresolve a

/-- The child that decides the cell with an instruction: it is in the state of the machine
with the value stored, and this write is its decision. -/
structure Stores (tree : StateTree) (last : LineMachine) (address : Word)
    (instruction : Instruction) (kid : NodeId) : Prop where
  /-- The value names the instruction at the address. -/
  stands : Stands tree kid (last.store address (encode address instruction))
  /-- It is what the node decides. -/
  decides : ∃ node, tree.node? kid = .ok node ∧
    node.decision = some (address, encode address instruction)

/-- What an expansion has to answer, given the run of its machine. -/
structure Plain (target : Target) (machine : LineMachine) (tree : StateTree)
    (expansion : Expansion NodeId) : Prop where
  /-- There is a goal if and only if the run exits having printed the target. -/
  goal_iff : (∃ goal, expansion = .goal goal) ↔ ∃ last, Succeeds target machine last
  /-- The goal is in the state in which it exits. -/
  goal_stands : ∀ goal last, expansion = .goal goal → Succeeds target machine last →
    Stands tree goal last
  /-- There are children if and only if the run comes to an undecided cell. -/
  branch_iff : (∃ kid kids, expansion = .children (kid :: kids)) ↔
    ∃ address last, Branches target machine address last
  /-- There is one for every instruction, in order, that stores its value in the cell. -/
  branch_stores : ∀ kids address last, expansion = .children kids →
    Branches target machine address last →
    List.Forall₂ (Stores tree last address) Instruction.all kids
  /-- There is nothing if and only if the run comes to nothing. -/
  nothing_iff : expansion = .children [] ↔ ∃ last, Dies target machine last

/-- The answer is the same for an alike machine. -/
theorem Plain.of_alike (h : Plain target machine tree expansion) (ha : Alike machine other) :
    Plain target other tree expansion := by
  refine ⟨h.goal_iff.trans ?_, fun goal last hgoal hlast => ?_, h.branch_iff.trans ?_,
    fun kids address last hkids hlast => ?_, h.nothing_iff.trans ?_⟩
  · exact ⟨fun ⟨last, hlast⟩ => (hlast.alike ha).imp fun _ => And.left,
      fun ⟨last, hlast⟩ => (hlast.alike ha.symm).imp fun _ => And.left⟩
  · obtain ⟨last', hlast', halike⟩ := hlast.alike ha.symm
    exact stands_of_alike (h.goal_stands goal last' hgoal hlast') halike.symm
  · exact ⟨fun ⟨address, last, hlast⟩ => ⟨address, (hlast.alike ha).imp fun _ => And.left⟩,
      fun ⟨address, last, hlast⟩ => ⟨address, (hlast.alike ha.symm).imp fun _ => And.left⟩⟩
  · obtain ⟨last', hlast', halike⟩ := hlast.alike ha.symm
    refine (h.branch_stores kids address last' hkids hlast').imp fun instruction kid hkid => ?_
    exact ⟨stands_of_alike hkid.stands (halike.symm.store _ _), hkid.decides⟩
  · exact ⟨fun ⟨last, hlast⟩ => hlast.alike ha, fun ⟨last, hlast⟩ => hlast.alike ha.symm⟩

/-- What an expansion answers, by what its run meets. -/
theorem plain_of_meets {found : Fate} (meets : Meets target machine last found)
    (inRange : (step target.lenient last).1 ≠ .overflowed)
    (dies : found = .dies → expansion = .children [])
    (succeeds : found = .succeeds last → ∃ goal, expansion = .goal goal ∧ Stands tree goal last)
    (asks : ∀ address, found = .asks address last → ∃ kids, expansion = .children kids ∧
      List.Forall₂ (Stores tree last address) Instruction.all kids) :
    Plain target machine tree expansion := by
  rcases meets.cases inRange with ⟨rfl, hend⟩ | ⟨address, rfl, hend⟩ | ⟨rfl, hend⟩
  · obtain ⟨goal, rfl, hstands⟩ := succeeds rfl
    refine ⟨iff_of_true ⟨goal, rfl⟩ ⟨last, hend⟩, fun other found hgoal hfound => ?_,
      iff_of_false nofun ?_, nofun, iff_of_false nofun ?_⟩
    · cases hgoal
      obtain ⟨rfl, -⟩ := meets.unique hfound.meets
      exact hstands
    · rintro ⟨address, found, hfound⟩
      cases (meets.unique hfound.meets).2
    · rintro ⟨found, hfound⟩
      cases (meets.unique hfound.meets).2
  · obtain ⟨kids, rfl, hall⟩ := asks address rfl
    have hsome : ∃ kid more, kids = kid :: more := by
      cases hall with
      | cons hkid hmore => exact ⟨_, _, rfl⟩
    obtain ⟨kid, more, rfl⟩ := hsome
    refine ⟨iff_of_false nofun ?_, nofun, iff_of_true ⟨kid, more, rfl⟩ ⟨address, last, hend⟩,
      fun kids cell found hkids hfound => ?_, iff_of_false nofun ?_⟩
    · rintro ⟨found, hfound⟩
      cases (meets.unique hfound.meets).2
    · cases hkids
      obtain ⟨rfl, hsame⟩ := meets.unique hfound.meets
      cases hsame
      exact hall
    · rintro ⟨found, hfound⟩
      cases (meets.unique hfound.meets).2
  · obtain rfl := dies rfl
    refine ⟨iff_of_false nofun ?_, nofun, iff_of_false nofun ?_,
      fun kids cell found _ hfound => ?_, iff_of_true rfl ⟨last, hend⟩⟩
    · rintro ⟨found, hfound⟩
      cases (meets.unique hfound.meets).2
    · rintro ⟨address, found, hfound⟩
      cases (meets.unique hfound.meets).2
    · cases (meets.unique hfound.meets).2

/-- Where the expansion of a node stops, and that its machine begins the target there. -/
theorem meets_of_fate {phases : Nat} {found : Fate} (searching : Searching machine)
    (begins : Begins target machine.channel.output)
    (hf : fate target phases machine = some found) :
    ∃ last, Meets target machine last found ∧ Begins target last.channel.output ∧
      (step target.lenient last).1 ≠ .overflowed := by
  obtain ⟨i, last, hahead, honward, hsettle⟩ := fate_eq_some hf
  obtain ⟨hruns, hlast⟩ := runsTo_of_ahead begins hahead
  have hsearching : Searching last := by
    cases i with
    | zero =>
      cases hahead
      exact searching
    | succ i => exact (ahead_keeps searching hahead).1
  exact ⟨last, ⟨hruns, stuck_of_onward hlast honward, hsettle⟩, hlast,
    (hsearching.step target.lenient).2.1⟩

/-- The expansion of a node whose output begins the target answers what it has to. -/
theorem expandFrom_plain (h : Ground target.lenient tree held) (hm : id ∈ held)
    (hline : Line tree id line) (begins : Begins target (machineOf (nodesOf line)).channel.output)
    {phases : Nat} (ok : target.expandFrom id phases id tree = .ok expansion tree') :
    Plain target (machineOf (nodesOf line)) tree' expansion := by
  obtain ⟨line', hline', he⟩ := expandFrom_of_mem h hm phases
  rw [hline'.unique hline, ok] at he
  cases hf : fate target phases (machineOf (nodesOf line)) with
  | none =>
    rw [hf] at he
    obtain ⟨_, ha⟩ := he
    cases ha
  | some found =>
    rw [hf] at he
    obtain ⟨last, meets, -, inRange⟩ := meets_of_fate (h.explored hline).searching begins hf
    refine plain_of_meets meets inRange ?_ ?_ ?_
    · rintro rfl
      obtain ⟨_, ha, -⟩ := he
      cases ha
      rfl
    · rintro rfl
      obtain ⟨goal, found, _, ha, -, hfound, hlast⟩ := he
      cases ha
      exact ⟨goal, rfl, hlast ▸ stands_machineOf hfound⟩
    · rintro address rfl
      obtain ⟨kids, found, _, ha, hleaves, hlast, hall⟩ := he
      cases ha
      have hneeds := needs_of_asks hf
      refine ⟨kids, rfl, hall.imp fun instruction kid hkid => ?_⟩
      obtain ⟨child, hchild, hstored⟩ := hkid
      have hdecision := decision_of_needs (hleaves.ground.explored hchild) (hlast ▸ hneeds) hstored
      refine ⟨?_, child, hchild.node?_of_mem List.mem_cons_self, hdecision⟩
      rw [← hlast, ← hstored]
      exact stands_machineOf hchild

end Answers

section Reaching

variable {tree tree' : StateTree} {held : Multiset NodeId} {id : NodeId}
variable {line : List (NodeId × Node)}

/-- A node in the state of a machine has its output. -/
theorem output_of_stands (hs : Stands tree id machine) (hline : Line tree id line) :
    (machineOf (nodesOf line)).channel.output = machine.channel.output := by
  rw [(hs.alike hline).channel_eq]

/-- The output of every node that a search gets to begins the target. The induction is on
the way there; it is the children and the goals of an expansion that are new. -/
theorem begins_of_reached (h : Reached target tree held) (hm : id ∈ held)
    (hline : Line tree id line) : Begins target (machineOf (nodesOf line)).channel.output := by
  induction h generalizing id line with
  | root made =>
    obtain ⟨_, _, hr, -, hroot⟩ := root_ground target.lenient
    cases made.symm.trans hr
    cases Multiset.mem_singleton.mp hm
    rw [hline.unique hroot]
    exact List.nil_prefix
  | children before mem phases expanded ih =>
    have hleaves := leaves_children before.ground mem expanded
    rcases Multiset.mem_add.mp hm with hkid | hold
    · obtain ⟨node, rest, horigin⟩ := before.ground.books.line_of_mem mem
      have hplain := expandFrom_plain before.ground mem horigin (ih mem horigin) expanded
      obtain ⟨kid, more, hkids⟩ := List.exists_cons_of_ne_nil
        (List.ne_nil_of_mem (Multiset.mem_coe.mp hkid))
      obtain ⟨address, last, hbranches⟩ := hplain.branch_iff.mp ⟨kid, more, congrArg _ hkids⟩
      obtain ⟨instruction, -, hstores⟩ := exists_of_forall₂
        (hplain.branch_stores _ address last rfl hbranches).flip (Multiset.mem_coe.mp hkid)
      rw [output_of_stands hstores.stands hline, store_eq]
      exact hbranches.runs.allows_last (ih mem horigin)
    · exact ih hold ((hleaves.keeps.line_iff before.ground le_rfl hold).mp hline)
  | goal before mem phases expanded ih =>
    obtain ⟨hleaves, -⟩ := leaves_goal before.ground mem expanded
    rcases Multiset.mem_cons.mp hm with rfl | hold
    · obtain ⟨node, rest, horigin⟩ := before.ground.books.line_of_mem mem
      have hplain := expandFrom_plain before.ground mem horigin (ih mem horigin) expanded
      obtain ⟨last, hsucceeds⟩ := hplain.goal_iff.mp ⟨_, rfl⟩
      rw [output_of_stands (hplain.goal_stands _ last rfl hsucceeds) hline]
      exact begins_of_isMet hsucceeds.met
    · exact ih hold ((hleaves.keeps.line_iff before.ground le_rfl hold).mp hline)
  | release before released ih =>
    obtain ⟨_, hr, -, hkeeps⟩ := before.ground.release
    cases released.symm.trans hr
    have hold := (hkeeps.line_iff before.ground (Multiset.le_cons_self _ _) hm).mp hline
    exact ih (Multiset.mem_cons_of_mem hm) hold

/-- The output of every node that a search gets to begins the target, without regard to the
case of letters. If the expansion of the node returns, it answers what a run of the machine
of the node would that compares the whole output with the target after every phase: a goal
if and only if the run exits having printed the target; else a child for every instruction,
each with its value stored in the first undecided cell that the run reads, if and only if it
gets that far while every output begins the target; and else nothing. -/
theorem expansion_compares_whole_output (target : Target) {tree : StateTree}
    {held : Multiset NodeId} {id : NodeId} {machine : LineMachine}
    (reached : Reached target tree held) (mem : id ∈ held) (stands : Stands tree id machine) :
    (∀ node, tree.node? id = .ok node → Begins target node.output) ∧
      ∀ phases expansion tree', target.expandFrom id phases id tree = .ok expansion tree' →
        Plain target machine tree' expansion := by
  obtain ⟨found, line, hline⟩ := reached.ground.books.line_of_mem mem
  have hbegins := begins_of_reached reached mem hline
  refine ⟨fun node hn => ?_, fun phases expansion tree' ok => ?_⟩
  · cases hn.symm.trans (hline.node?_of_mem List.mem_cons_self)
    exact hbegins
  · exact (expandFrom_plain reached.ground mem hline hbegins ok).of_alike (stands.alike hline)

/-- Searches decide an output in the first cell, which prints a NUL. Where a NUL is the target,
the node has a child for every instruction in the second cell; its child with an exit there is a
goal. Where "Hi" is, the NUL is refused and the node has no children. -/
theorem expansion_compares_whole_output_of_nul :
    let printing := (machineOf [.root]).store 0 (encode 0 .output)
    (∃ tree held id kids tree' last, Reached ⟨[0], true, 0⟩ tree held ∧ id ∈ held ∧
      Stands tree id printing ∧
      Target.expandFrom ⟨[0], true, 0⟩ id 3 id tree = .ok (.children kids) tree' ∧
      Branches ⟨[0], true, 0⟩ printing 1 last ∧ last.channel.output = [0] ∧
      List.Forall₂ (Stores tree' last 1) Instruction.all kids) ∧
    (∃ tree held id machine goal tree' last, Reached ⟨[0], true, 0⟩ tree held ∧ id ∈ held ∧
      Stands tree id machine ∧
      Target.expandFrom ⟨[0], true, 0⟩ id 3 id tree = .ok (.goal goal) tree' ∧
      Stands tree' goal last ∧ last.channel.output = [0]) ∧
    ∃ tree held id tree', Reached ⟨[72, 105], true, 0⟩ tree held ∧ id ∈ held ∧
      Stands tree id printing ∧
      Target.expandFrom ⟨[72, 105], true, 0⟩ id 3 id tree = .ok (.children []) tree' := by
  intro printing
  refine ⟨?_, ?_, ?_⟩
  · have hleads : follow ⟨[0], true, 0⟩ 3 [.output] (machineOf [.root]) = some printing := rfl
    obtain ⟨tree, held, id, expansion, tree', h, hm, hs, ok⟩ := expanded_of_leads hleads nofun
    have hplain := (expansion_compares_whole_output _ h hm hs).2 3 expansion tree' ok
    obtain ⟨last, hbranches, hprinted⟩ : ∃ last, Branches ⟨[0], true, 0⟩ printing 1 last ∧
        last.channel.output = [0] :=
      ⟨_, ⟨.on rfl (List.prefix_refl _) (.on rfl (List.prefix_refl _) .here), rfl⟩, rfl⟩
    obtain ⟨kid, kids, rfl⟩ := hplain.branch_iff.mpr ⟨1, last, hbranches⟩
    exact ⟨tree, held, id, kid :: kids, tree', last, h, hm, hs, ok, hbranches, hprinted,
      hplain.branch_stores _ 1 last rfl hbranches⟩
  · obtain ⟨machine, hleads, hsettles, last, hsucceeds, hprinted⟩ :
        ∃ machine, follow ⟨[0], true, 0⟩ 3 [.output, .exit] (machineOf [.root]) = some machine ∧
          fate ⟨[0], true, 0⟩ 3 machine ≠ none ∧
          ∃ last, Succeeds ⟨[0], true, 0⟩ machine last ∧ last.channel.output = [0] :=
      ⟨_, rfl, nofun, _, ⟨.here, rfl, rfl⟩, rfl⟩
    obtain ⟨tree, held, id, expansion, tree', h, hm, hs, ok⟩ := expanded_of_leads hleads hsettles
    have hplain := (expansion_compares_whole_output _ h hm hs).2 3 expansion tree' ok
    obtain ⟨goal, rfl⟩ := hplain.goal_iff.mpr ⟨last, hsucceeds⟩
    exact ⟨tree, held, id, machine, goal, tree', last, h, hm, hs, ok,
      hplain.goal_stands goal last rfl hsucceeds, hprinted⟩
  · have hleads : follow ⟨[72, 105], true, 0⟩ 3 [.output] (machineOf [.root]) = some printing := rfl
    obtain ⟨tree, held, id, expansion, tree', h, hm, hs, ok⟩ := expanded_of_leads hleads nofun
    have hplain := (expansion_compares_whole_output _ h hm hs).2 3 expansion tree' ok
    have hrefused : ¬Begins ⟨[72, 105], true, 0⟩ [0] := by
      unfold Begins
      decide
    have hdies : Dies ⟨[72, 105], true, 0⟩ printing printing := ⟨.here, .strays rfl hrefused⟩
    obtain rfl := hplain.nothing_iff.mpr ⟨printing, hdies⟩
    exact ⟨tree, held, id, tree', h, hm, hs, ok⟩

end Reaching

end TernarySynth.Proofs.PlainExpansion
