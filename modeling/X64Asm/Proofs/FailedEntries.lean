import Mathlib.Data.List.TakeWhile
import X64Asm.Proofs.EncodingOutcome
import X64Asm.Proofs.Sessions

/-! # What a failed entry leaves behind

An entry that fails for want of an encoding is an instruction, and all it leaves is that it has been
counted as a statement (`Assembler.answers_after_failed`).  No later call tells the difference until
one of them reports that the statements are exhausted: a state and the same state with one more entry
counted do the same up to there, action by action (`perform_counted`), and so call by call, for any
number of entries (`answers_counted_many`).

That report may come one entry earlier (`Assembler.failed_entry_exhausts`). -/

namespace X64Asm

/-- What a caller sees after a call: whether it failed, the code, labels and symbols, and what would
come of finishing there. -/
structure Answer where
  failure : Option Failure
  code : Array UInt8
  labels : Array (String × Nat)
  symbols : SymbolTable
  finished : Except Diagnostic Assembly

/-- The failure is that there are too many statements. -/
def Failure.exhaustsStatements : Failure → Bool
  | diagnostic (.limitExceeded resource _) => resource = Resource.statements.render
  | diagnostic _ | overflow _ => false

/-- The call was refused because there are too many statements. -/
def Answer.exhaustsStatements (a : Answer) : Bool := a.failure.any Failure.exhaustsStatements

namespace Outcome

/-- What a caller sees of an outcome. -/
def answer (o : Outcome) : Answer where
  failure := o.failure
  code := o.state.code
  labels := o.state.labels
  symbols := o.state.symbols
  finished := o.state.finish

/-- The same outcome with one more entry counted. -/
def counted (o : Outcome) : Outcome := ⟨o.state.counted, o.failure⟩

theorem answer_counted (o : Outcome) : o.counted.answer = o.answer := rfl

/-- The outcome is the other with one more entry counted, unless the statements are exhausted. -/
def CountedFrom (o before : Outcome) : Prop :=
  o.answer.exhaustsStatements = true ∨ o = before.counted

end Outcome

namespace Assembler

/-- What a caller sees of a session. -/
def answers (s : Assembler) : List Call → List Answer
  | [] => []
  | c :: calls => (s.call c).answer :: (s.call c).state.answers calls

/-! ### One entry more -/

section counting

variable (s : Assembler)

theorem output_counted (bytes : Bytes) : s.counted.output bytes = (s.output bytes).counted := by
  have hfull : s.counted.outputFull bytes.length = s.outputFull bytes.length := rfl
  unfold output
  rw [hfull]
  by_cases h : s.outputFull bytes.length = true
  · rw [if_pos h, if_pos h]
    rfl
  · rw [if_neg h, if_neg h]
    rfl

theorem addInstruction_counted (i : Instruction) :
    s.counted.addInstruction i = (s.addInstruction i).counted := by
  have hlayout : s.counted.options.imm16 = s.options.imm16 := rfl
  unfold addInstruction
  rw [hlayout]
  cases i.encode s.options.imm16 with
  | error f => rfl
  | ok buf => exact s.output_counted buf.toList

theorem addData_counted (bytes : Bytes) : s.counted.addData bytes = (s.addData bytes).counted := by
  have hemit : s.counted.options.emitData = s.options.emitData := rfl
  unfold addData
  rw [hemit]
  by_cases h : s.options.emitData = true
  · rw [if_pos h, if_pos h, output_counted]
  · rw [if_neg h, if_neg h]
    rfl

theorem addLabel_counted (name : String) :
    s.counted.addLabel name = (s.addLabel name).counted := by
  by_cases h : s.options.limits.labels < s.labelCount + 1
  · rw [addLabel_full h, addLabel_full (s := s.counted) h]
    rfl
  · rw [addLabel_room h, addLabel_room (s := s.counted) h]
    rfl

/-- The limit that leaves room for the next but one leaves room for the next. -/
theorem addEntry_counted (e : SectionEntry) :
    (s.counted.addEntry e).CountedFrom (s.addEntry e) := by
  by_cases h : s.options.limits.statements < s.counted.counted.statementCount
  · left
    rw [addEntry_full (s := s.counted) h]
    rfl
  · right
    have hbefore : ¬ s.options.limits.statements < s.counted.statementCount :=
      fun hlt => h (Nat.lt_succ_of_lt hlt)
    rw [addEntry_room (s := s.counted) h, addEntry_room hbefore]
    cases e with
    | instruction i => exact s.counted.addInstruction_counted i
    | data bytes => exact s.counted.addData_counted bytes
    | label name => exact s.counted.addLabel_counted name

theorem perform_counted (action : Action) :
    (s.counted.perform action).CountedFrom (s.perform action) := by
  cases action with
  | enter name count => exact .inr rfl
  | declare name kind => exact .inr rfl
  | entry e => exact s.addEntry_counted e

theorem run_counted (actions : List Action) :
    (s.counted.run actions).CountedFrom (s.run actions) := by
  induction actions generalizing s with
  | nil => exact .inr rfl
  | cons action actions ih =>
      have hfirst := s.perform_counted action
      rw [run, run]
      cases hperform : s.perform action with
      | mk after failure =>
          rw [hperform] at hfirst
          rcases hfirst with hexhausted | hfirst
          · left
            cases hcounted : s.counted.perform action with
            | mk state failure' =>
                rw [hcounted] at hexhausted
                cases failure' with
                | none => cases hexhausted
                | some f => exact hexhausted
          · rw [hfirst]
            cases failure with
            | none => exact ih after
            | some f => exact .inr rfl

theorem call_counted (c : Call) : (s.counted.call c).CountedFrom (s.call c) := by
  cases c with
  | setOptions options => exact .inr rfl
  | setLimits limits => exact .inr rfl
  | setImm16 layout => exact .inr rfl
  | setEmitData enabled => exact .inr rfl
  | emit source =>
      have hactions : s.counted.sourceActions source = s.sourceActions source := rfl
      show (s.counted.emit source).CountedFrom (s.emit source)
      unfold emit
      rw [hactions]
      cases s.sourceActions source with
      | error d => exact .inr rfl
      | ok actions => exact s.run_counted actions
  | assemble node =>
      show (s.counted.assemble node).CountedFrom (s.assemble node)
      unfold assemble
      cases node.actions with
      | error d => exact .inr rfl
      | ok actions => exact s.run_counted actions

/-- One more entry counted shows in no answer up to the first that reports too many statements. -/
theorem answers_counted (calls : List Call) :
    (s.counted.answers calls).takeWhile (!·.exhaustsStatements) <+: s.answers calls := by
  induction calls generalizing s with
  | nil => exact List.nil_prefix
  | cons c calls ih =>
      rw [answers, answers]
      rcases s.call_counted c with hexhausted | hcall
      · rw [List.takeWhile_cons_of_neg (by rw [hexhausted]; decide)]
        exact List.nil_prefix
      · rw [hcall, Outcome.answer_counted, List.takeWhile_cons]
        split
        · exact (List.prefix_cons_inj _).mpr (ih (s.call c).state)
        · exact List.nil_prefix

/-- Entries that are only counted show in no answer up to the first that reports too many
statements. -/
theorem answers_counted_many (n : Nat) (calls : List Call) :
    (({ s with statementCount := s.statementCount + n } : Assembler).answers calls).takeWhile
      (!·.exhaustsStatements) <+: s.answers calls := by
  induction n with
  | zero => exact List.takeWhile_prefix _
  | succ n ih =>
      obtain ⟨others, hothers⟩ :=
        ({ s with statementCount := s.statementCount + n } : Assembler).answers_counted calls
      have hkept : ∀ as : List Answer, ∀ a ∈ as.takeWhile (!·.exhaustsStatements),
          (!a.exhaustsStatements) = true :=
        fun as a => List.mem_takeWhile_imp (p := fun a : Answer => !a.exhaustsStatements)
      rw [← hothers, List.takeWhile_append_of_pos (hkept _)] at ih
      exact (List.prefix_append _ _).trans ih

end counting

/-! ### Failed entries -/

variable {s t : Assembler} {e : SectionEntry} {d : Diagnostic}

/-- An entry that fails, but neither at a limit nor for a malformed operand, is an instruction without
an encoding, and is only counted. -/
theorem failed_of_addEntry (h : s.addEntry e = ⟨t, some (.diagnostic d)⟩) (hfatal : d.isFatal = false)
    (hlimit : ∀ resource limit, d ≠ .limitExceeded resource limit) :
    (∃ i, e = .instruction i ∧ d = .noEncoding i.render) ∧ t = s.counted := by
  have hrefused := refused_addEntry h
  generalize hout : Outcome.mk t (some (.diagnostic d)) = o at hrefused
  cases hrefused with
  | statements =>
      cases hout
      exact absurd rfl (hlimit _ _)
  | output =>
      cases hout
      exact absurd rfl (hlimit _ _)
  | labels name =>
      cases hout
      exact absurd rfl (hlimit _ _)
  | @encoding i f encode =>
      cases hout
      refine ⟨⟨i, rfl, ?_⟩, rfl⟩
      rcases i.encode_outcome s.options.imm16 with hnone | ⟨f, hf, hmalformed⟩ | ⟨buf, hbuf, _⟩
      · rw [hnone] at encode
        cases encode
        rfl
      · rw [hf] at encode
        cases encode
        rw [Failure.Malformed, hfatal] at hmalformed
        cases hmalformed
      · rw [hbuf] at encode
        cases encode

/-- An entry that fails, but neither at a limit nor for a malformed operand, is an instruction without
an encoding.  It is counted as a statement and leaves all else as it was, and the answers to later
calls are as if it had not been there, up to the first that reports too many statements. -/
theorem answers_after_failed (h : s.assemble (.entry e) = ⟨t, some (.diagnostic d)⟩)
    (hfatal : d.isFatal = false) (hlimit : ∀ resource limit, d ≠ .limitExceeded resource limit) :
    (∃ i, e = .instruction i ∧ d = .noEncoding i.render) ∧
    t = { s with statementCount := s.statementCount + 1 } ∧
    ∀ calls, (t.answers calls).takeWhile (!·.exhaustsStatements) <+: s.answers calls := by
  have hentry : s.addEntry e = ⟨t, some (.diagnostic d)⟩ := by
    rw [← h]
    show _ = s.run [.entry e]
    rw [run, perform]
    cases hadd : s.addEntry e with
    | mk state failure => cases failure <;> rfl
  obtain ⟨hinstruction, rfl⟩ := failed_of_addEntry hentry hfatal hlimit
  exact ⟨hinstruction, rfl, s.answers_counted⟩

/-- An assembler that takes two statements. -/
def crowded : Assembler := { options := { limits := { statements := 2 } } }

/-- An instruction without an encoding. -/
def unencodable : SectionEntry := .instruction ⟨64, "hlt", []⟩

/-- Two labels, one after the other. -/
def laterCalls : List Call := [.assemble (.entry (.label "a")), .emit "b:", .setEmitData true]

theorem answers_after_failed_crowded :
    crowded.assemble (.entry unencodable) =
      ⟨crowded.counted, some (.diagnostic (.noEncoding "hlt"))⟩ ∧
    (crowded.counted.answers laterCalls).map (·.failure) =
      [none, some (.diagnostic (.exhausted .statements 2)), none] ∧
    (crowded.counted.answers laterCalls).takeWhile (!·.exhaustsStatements) <+:
      crowded.answers laterCalls := by
  have hfailed : crowded.assemble (.entry unencodable) =
      ⟨crowded.counted, some (.diagnostic (.noEncoding "hlt"))⟩ := by
    decide +kernel
  refine ⟨hfailed, by decide +kernel, ?_⟩
  have hlimit : ∀ resource limit, Diagnostic.noEncoding "hlt" ≠ .limitExceeded resource limit := by
    intro resource limit h
    cases h
  exact (answers_after_failed hfailed rfl hlimit).2.2 laterCalls

/-- A failed entry uses up the last statement but one, so the second label finds no room. -/
theorem failed_entry_exhausts :
    (crowded.assemble (.entry unencodable)).failure =
      some (.diagnostic (.noEncoding "hlt")) ∧
    ((crowded.assemble (.entry unencodable)).state.answers laterCalls).map (·.failure) =
      [none, some (.diagnostic (.exhausted .statements 2)), none] ∧
    (crowded.answers laterCalls).map (·.failure) = [none, none, none] := by
  decide +kernel

end Assembler

end X64Asm
