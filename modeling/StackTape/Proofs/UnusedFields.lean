import StackTape.Proofs.Spelling

/-!
# Fields that an opcode does not use

An instruction has two constants and a target whatever its opcode is. Checking, numbering the calls
and drafting read only those that the opcode uses, so putting zeros into the others changes nothing
(`compile_map_bare`). As a text shows the fields in use, programs that are written alike are
compiled alike.
-/

namespace StackTape

namespace Instruction

theorem violation?_bare (o : Options) (length : Nat) (i : Instruction) :
    i.bare.violation? o length = i.violation? o length := by
  obtain ⟨op, operand1, operand2, target⟩ := i
  cases op with
  | push w => cases w <;> rfl
  | _ => rfl

end Instruction

theorem Draft.emit_bare (sites : CallSites) (position : Nat) (i : Instruction) :
    emit sites position i.bare = emit sites position i := by
  obtain ⟨op, operand1, operand2, target⟩ := i
  cases op with
  | push w => cases w <;> rfl
  | _ => rfl

theorem Draft.emitFrom_map_bare (sites : CallSites) (position : Nat) (p : Program) :
    emitFrom sites position (p.map Instruction.bare) = emitFrom sites position p := by
  induction p generalizing position with
  | nil => rfl
  | cons i p ih => rw [List.map_cons, emitFrom, emitFrom, emit_bare, Instruction.opcode_bare, ih]

namespace Program

theorem callCount_map_bare (p : Program) : callCount (p.map Instruction.bare) = p.callCount := by
  simp [callCount, List.countP_map, Function.comp_def]

theorem returnAddresses_map_bare (p : Program) :
    returnAddresses (p.map Instruction.bare) = p.returnAddresses := by
  simp [returnAddresses, List.zipIdx_map, List.filterMap_map]

theorem violation?_map_bare (o : Options) (p : Program) :
    violation? o (p.map Instruction.bare) = p.violation? o := by
  simp [violation?, List.zipIdx_map, List.findSome?_map, Function.comp_def,
    Instruction.violation?_bare]

end Program

theorem compile_map_bare (o : Options) (p : Program) :
    compile o (p.map Instruction.bare) = compile o p := by
  have hsites : CallSites.ofProgram? (p.map Instruction.bare) = CallSites.ofProgram? p := by
    simp only [CallSites.ofProgram?, Program.returnAddresses_map_bare]
  have hbuild : ∀ sites, Draft.build sites (p.map Instruction.bare) = Draft.build sites p := by
    intro sites
    simp only [Draft.build, Draft.emitFrom_map_bare]
  simp only [compile, compileWith, hsites, hbuild, Program.callCount_map_bare,
    Program.violation?_map_bare]

/-- Programs that are written alike are compiled alike, to the same machine or to the same error,
whatever the options are. So it does not matter what the fields hold that an opcode does not use. -/
theorem compile_eq_of_text_eq (o : Options) :
    (∀ p q : Program, List.Forall₂ (fun i j => i.text = j.text) p q → compile o p = compile o q) ∧
      ∀ p : Program, compile o (p.map Instruction.bare) = compile o p := by
  refine ⟨fun p q h => ?_, compile_map_bare o⟩
  have hbare : p.map Instruction.bare = q.map Instruction.bare := by
    rw [← List.forall₂_eq_eq_eq, List.forall₂_map_left_iff, List.forall₂_map_right_iff]
    exact h.imp fun i j hij => Instruction.text_eq_iff.1 hij
  rw [← compile_map_bare o p, hbare, compile_map_bare]

/-- Programs that differ in fields which their opcodes do not use, with a machine and without. -/
theorem written_alike_compiled_alike :
    (∃ c, compile {} [⟨.pop .w8, 7, 8, 9⟩, ⟨.jump, 1, 2, 0⟩] = .ok c ∧
      compile {} [⟨.pop .w8, 0, 0, 0⟩, ⟨.jump, 18446744073709551615, 4, 0⟩] = .ok c) ∧
    compile {} [⟨.jump, 1, 2, 0⟩, ⟨.push .w8, 300, 0, 5⟩] =
      .error (.instruction 1 (.operand (.push .w8) 300)) ∧
    compile {} [⟨.jump, 0, 0, 0⟩, ⟨.push .w8, 300, 6, 18446744073709551615⟩] =
      .error (.instruction 1 (.operand (.push .w8) 300)) := by
  have hsites : CallSites.ofProgram? [⟨.pop .w8, 7, 8, 9⟩, ⟨.jump, 1, 2, 0⟩] = some ⟨[]⟩ := rfl
  obtain ⟨c, hc⟩ := exists_compile (o := {}) hsites (by decide)
  have herror : compile {} [⟨.jump, 1, 2, 0⟩, ⟨.push .w8, 300, 0, 5⟩] =
      .error (.instruction 1 (.operand (.push .w8) 300)) := rfl
  refine ⟨⟨c, hc, ?_⟩, herror, ?_⟩
  · rw [← hc]
    exact (compile_eq_of_text_eq {}).1 _ _ (.cons rfl (.cons rfl .nil))
  · rw [← herror]
    exact (compile_eq_of_text_eq {}).1 _ _ (.cons rfl (.cons rfl .nil))

end StackTape
