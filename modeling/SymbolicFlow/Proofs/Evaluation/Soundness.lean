import SymbolicFlow.Proofs.Evaluation.Refinement

/-!
# Values are sound for the instructions

A `Meaning` gives every variable a word, so that each instruction becomes an equation between
words.  Where all these equations hold, the value of a variable is worth the word of the variable:
evaluation replaces a variable only by what its definition computes.  This does not depend on how
deep evaluation went, since a variable that was left as it is is worth its own word.
-/

set_option autoImplicit false

namespace SymbolicFlow

/-- What variables, memory and operators are worth.  Sums, differences and products wrap around;
the other operators can be anything. -/
structure Meaning where
  env : VarId → UInt64
  memory : UInt64 → UInt64
  binary : Operator → UInt64 → UInt64 → UInt64
  unary : Operator → UInt64 → UInt64
  add : ∀ left right, binary .add left right = left + right
  sub : ∀ left right, binary .sub left right = left - right
  mul : ∀ left right, binary .mul left right = left * right

attribute [simp] Meaning.add Meaning.sub Meaning.mul

def Meaning.fetch (meaning : Meaning) (loaded : Bool) (word : UInt64) : UInt64 :=
  if loaded then meaning.memory word else word

@[simp] theorem Meaning.fetch_false (meaning : Meaning) (word : UInt64) :
    meaning.fetch false word = word := rfl

@[simp] theorem Meaning.fetch_true (meaning : Meaning) (word : UInt64) :
    meaning.fetch true word = meaning.memory word := rfl

def Tree.eval (meaning : Meaning) : Tree → UInt64
  | .absent => 0
  | .immediate value loaded => meaning.fetch loaded value.toUInt64
  | .register var loaded => meaning.fetch loaded (meaning.env var)
  | .memory address loaded => meaning.fetch loaded address
  | .binary operator left right loaded =>
      meaning.fetch loaded (meaning.binary operator (left.eval meaning) (right.eval meaning))
  | .unary operator operand loaded =>
      meaning.fetch loaded (meaning.unary operator (operand.eval meaning))

namespace Ssa

namespace Statement

variable (statement : Statement) (meaning : Meaning)

/-- `base + index * scale + offset`; a missing register counts as zero. -/
def addressWord (position : Nat) (reference : MemoryReference) : UInt64 :=
  let base := ((statement.operandVar? position).map meaning.env).getD 0
  let index := ((statement.indexVar? position).map meaning.env).getD 0
  base + index * reference.scale.toUInt64 + reference.offset.toUInt64

def operandWord (position : Nat) : Option UInt64 :=
  match statement.instruction with
  | none => none
  | some instruction =>
      match instruction.operands[position]? with
      | none =>
          if position < statement.positionCount then
            (statement.operandVar? position).map meaning.env
          else none
      | some operand =>
          match operand.kind with
          | .immediate value => some value.toUInt64
          | .register _ | .indexedRegister _ _ =>
              (statement.operandVar? position).map meaning.env
          | .memory reference | .relativeMemory reference =>
              some (meaning.memory (statement.addressWord meaning position reference))
          | .pointer _ => none

def combinedWord (operator : Operator) : Option UInt64 :=
  match statement.operandWord meaning 0, statement.operandWord meaning 1 with
  | some first, some second => some (meaning.binary operator second first)
  | _, _ => none

def arithmeticWord (operator : Operator) : Option UInt64 :=
  if statement.explicitCount < 2 then none else statement.combinedWord meaning operator

def referenceWord (instruction : Instruction) : Option UInt64 :=
  ((instruction.operands[0]?).bind Operand.memory?).map (statement.addressWord meaning 0)

def familyWord (instruction : Instruction) : Family → Option UInt64
  | .move => statement.operandWord meaning 0
  | .add => statement.arithmeticWord meaning .add
  | .sub => statement.arithmeticWord meaning .sub
  | .mul => statement.arithmeticWord meaning .mul
  | .div => statement.arithmeticWord meaning .div
  | .shl | .sal => statement.combinedWord meaning .shiftLeft
  | .shr | .sar => statement.combinedWord meaning .shiftRight
  | .xor => if clears instruction then some 0 else none
  | .lea => statement.referenceWord meaning instruction
  | .inc => (statement.operandWord meaning 0).map (· + 1)
  | .dec => (statement.operandWord meaning 0).map (· - 1)
  | .sqrt => (statement.operandWord meaning 0).map (meaning.unary .sqrt)
  | _ => none

def resultWord : Option UInt64 :=
  match statement.instruction with
  | none => none
  | some instruction => statement.familyWord meaning instruction instruction.family

/-- The equation of a statement: if it computes a word, that is the word of its first output. -/
def Equation : Prop :=
  ∀ output ∈ statement.output?, statement.resultWord meaning = none ∨
    statement.resultWord meaning = some (meaning.env output)

def Addresses : Prop :=
  ∀ instruction ∈ statement.instruction, instruction.family = .lea →
    ((instruction.operands[0]?).bind Operand.memory?).isSome

instance : Decidable (statement.Equation meaning) :=
  inferInstanceAs (Decidable (∀ output ∈ statement.output?, _))

instance : Decidable statement.Addresses :=
  inferInstanceAs (Decidable (∀ instruction ∈ statement.instruction, _))

end Statement

namespace Form

/-- The equations of all statements hold, and every read of the program counter yields its
address. -/
def Satisfies (form : Form) (meaning : Meaning) : Prop :=
  (∀ block ∈ form.blocks, ∀ statement ∈ block.statements, statement.Equation meaning) ∧
    ∀ read ∈ form.counterReads, meaning.env read.1 = read.2

def Addresses (form : Form) : Prop :=
  ∀ block ∈ form.blocks, ∀ statement ∈ block.statements, statement.Addresses

instance (form : Form) (meaning : Meaning) : Decidable (form.Satisfies meaning) :=
  inferInstanceAs (Decidable (_ ∧ _))

instance (form : Form) : Decidable form.Addresses :=
  inferInstanceAs (Decidable (∀ block ∈ form.blocks, _))

end Form

/-! ## Expressions are worth the words of the statements -/

namespace Statement

variable {statement : Statement} {policy : Policy} {trees : VarId → Tree} {meaning : Meaning}

variable (reads : ∀ used ∈ statement.usedVars, (trees used).eval meaning = meaning.env used)

include reads

theorem eval_register (position : Nat) :
    ((statement.operandVar? position).map trees).map (Tree.eval meaning) =
      (statement.operandVar? position).map meaning.env := by
  rw [Option.map_map]
  exact Option.map_congr fun var found => reads var (mem_usedVars_of_slot found)

theorem eval_registerTree (position : Nat) (scale : UInt8) :
    ((statement.registerTree trees position scale).map (Tree.eval meaning)).getD 0 =
      ((statement.operandVar? position).map meaning.env).getD 0 +
        ((statement.indexVar? position).map meaning.env).getD 0 * scale.toUInt64 := by
  have worth : ∀ {slot : Nat} {var : VarId}, (statement.slots[slot]?).join = some var →
      (trees var).eval meaning = meaning.env var :=
    fun found => reads _ (mem_usedVars_of_slot found)
  cases base : statement.operandVar? position with
  | none =>
      cases index : statement.indexVar? position with
      | none => simp [registerTree, base, index]
      | some other =>
          simp [registerTree, base, index, Tree.eval, worth index]
  | some var =>
      cases index : statement.indexVar? position with
      | none => simp [registerTree, base, index, worth base]
      | some other =>
          simp [registerTree, base, index, Tree.eval, worth base, worth index]

variable (tracked : policy.untrackedMemory = false)

include tracked

/-- Loaded, a memory operand is worth what memory holds at its address; not loaded, it is worth
the address. -/
theorem eval_memoryTree (instruction : Instruction) (position : Nat)
    (reference : MemoryReference) :
    (statement.memoryTree policy trees instruction position reference).eval meaning =
        meaning.memory (statement.addressWord meaning position reference) ∧
      ((statement.memoryTree policy trees instruction position reference).remarked false).eval
          meaning = statement.addressWord meaning position reference := by
  have address := eval_registerTree reads position reference.scale
  simp only [memoryTree, tracked, Bool.false_and, Bool.false_eq_true, if_false, addressWord,
    ← address]
  cases statement.registerTree trees position reference.scale with
  | none => simp [Tree.eval, Tree.remarked]
  | some part => simp [Tree.eval, Tree.remarked, UInt64.add_comm]

theorem eval_operandTree (position : Nat) :
    (statement.operandTree policy trees position).map (Tree.eval meaning) =
      statement.operandWord meaning position := by
  have register := eval_register reads position
  have memory := fun instruction reference =>
    (eval_memoryTree reads tracked instruction position reference).1
  simp only [operandTree, operandWord]
  cases statement.instruction with
  | none => rfl
  | some instruction =>
      dsimp only
      cases instruction.operands[position]? with
      | none =>
          dsimp only
          split
          · exact register
          · rfl
      | some operand =>
          dsimp only
          cases operand.kind with
          | immediate value => rfl
          | register plain => exact register
          | indexedRegister plain index => exact register
          | memory reference => rw [Option.map_some, memory]
          | relativeMemory reference => rw [Option.map_some, memory]
          | pointer target => rfl

theorem operandWord_of_operandTree {position : Nat} {tree : Tree}
    (found : statement.operandTree policy trees position = some tree) :
    statement.operandWord meaning position = some (tree.eval meaning) := by
  rw [← eval_operandTree reads tracked, found, Option.map_some]

theorem combinedWord_of_operandTrees {first second : Tree}
    (found : statement.operandTree policy trees 0 = some first)
    (foundNext : statement.operandTree policy trees 1 = some second) (operator : Operator) :
    statement.combinedWord meaning operator =
      some ((Tree.binary operator second first false).eval meaning) := by
  simp only [combinedWord, operandWord_of_operandTree reads tracked found,
    operandWord_of_operandTree reads tracked foundNext, Tree.eval, Meaning.fetch_false]

theorem arithmeticWord_of_combinedTree {operator : Operator} {tree : Tree}
    (combined : statement.combinedTree policy trees operator = some tree) :
    statement.arithmeticWord meaning operator = some (tree.eval meaning) := by
  rw [combinedTree] at combined
  split at combined
  · cases combined
  · rename_i enough
    rw [arithmeticWord, if_neg enough]
    split at combined
    · rename_i first second found foundNext
      cases combined
      exact combinedWord_of_operandTrees reads tracked found foundNext operator
    · cases combined

theorem combinedWord_of_shiftedTree {operator : Operator} {tree : Tree}
    (shifted : statement.shiftedTree policy trees operator = some tree) :
    statement.combinedWord meaning operator = some (tree.eval meaning) := by
  rw [shiftedTree] at shifted
  split at shifted
  · rename_i amount value found foundNext
    split at shifted
    · cases shifted
    · cases shifted
      exact combinedWord_of_operandTrees reads tracked found foundNext operator
  · cases shifted

theorem referenceWord_of_operandTree {instruction : Instruction}
    (machine : statement.instruction = some instruction)
    (refers : ((instruction.operands[0]?).bind Operand.memory?).isSome) {tree : Tree}
    (found : statement.operandTree policy trees 0 = some tree) :
    statement.referenceWord meaning instruction = some ((tree.remarked false).eval meaning) := by
  obtain ⟨reference, referred⟩ := Option.isSome_iff_exists.mp refers
  obtain ⟨operand, first, isMemory⟩ := Option.bind_eq_some_iff.mp referred
  have shape : statement.memoryTree policy trees instruction 0 reference = tree := by
    rw [operandTree, machine] at found
    simp only [first] at found
    unfold Operand.memory? at isMemory
    split at isMemory <;> simp_all
  rw [referenceWord, referred, Option.map_some, ← shape,
    (eval_memoryTree reads tracked instruction 0 reference).2]

/-- What a statement computes as an expression is worth what it computes as a word. -/
theorem resultWord_of_resultTree (addresses : statement.Addresses) {tree : Tree}
    (result : statement.resultTree policy trees = some tree) :
    statement.resultWord meaning = some (tree.eval meaning) := by
  cases machine : statement.instruction with
  | none => simp [resultTree, machine] at result
  | some instruction =>
      have operand : ∀ {tree : Tree}, statement.operandTree policy trees 0 = some tree →
          statement.operandWord meaning 0 = some (tree.eval meaning) :=
        operandWord_of_operandTree reads tracked
      have refers := addresses instruction machine
      simp only [resultTree, machine] at result
      simp only [resultWord, machine]
      generalize instruction.family = family at result refers
      cases family
      case move => exact operand result
      case add => exact arithmeticWord_of_combinedTree reads tracked result
      case sub => exact arithmeticWord_of_combinedTree reads tracked result
      case mul => exact arithmeticWord_of_combinedTree reads tracked result
      case div => exact arithmeticWord_of_combinedTree reads tracked result
      case shl => exact combinedWord_of_shiftedTree reads tracked result
      case sal => exact combinedWord_of_shiftedTree reads tracked result
      case shr => exact combinedWord_of_shiftedTree reads tracked result
      case sar => exact combinedWord_of_shiftedTree reads tracked result
      case xor =>
        simp only [familyTree] at result
        simp only [familyWord]
        split at result
        · cases result
          rename_i clearing
          rw [if_pos clearing]
          rfl
        · cases result
      case lea =>
        obtain ⟨address, found, rfl⟩ := Option.map_eq_some_iff.mp result
        exact referenceWord_of_operandTree reads tracked machine (refers rfl) found
      case inc =>
        obtain ⟨value, found, rfl⟩ := Option.map_eq_some_iff.mp result
        have one : (1 : Int64).toUInt64 = 1 := rfl
        simp [familyWord, operand found, Tree.eval, one, UInt64.add_comm]
      case dec =>
        obtain ⟨value, found, rfl⟩ := Option.map_eq_some_iff.mp result
        have minusOne : (-1 : Int64).toUInt64 = -1 := rfl
        simp only [familyWord, operand found, Option.map_some, Tree.eval, Meaning.add, minusOne,
          Meaning.fetch_false, UInt64.sub_eq_add_neg, UInt64.add_comm]
      case sqrt =>
        obtain ⟨value, found, rfl⟩ := Option.map_eq_some_iff.mp result
        simp [familyWord, operand found, Tree.eval]
      all_goals cases result

end Statement

/-! ## Variables are worth their words -/

namespace Form

variable {form : Form} {meaning : Meaning}

theorem mem_statements_of_definition? {var : VarId} {statement : Statement}
    (defined : form.definition? var = some statement) :
    ∃ block ∈ form.blocks, statement ∈ block.statements := by
  obtain ⟨place, placed⟩ := exists_place_of_definition? defined
  obtain ⟨block, inForm, inBlock⟩ := Option.bind_eq_some_iff.mp placed
  exact ⟨block, Array.mem_of_getElem? inForm, Array.mem_of_getElem? inBlock⟩

theorem Satisfies.eval_definitionTree (satisfied : form.Satisfies meaning)
    (addresses : form.Addresses) {policy : Policy} (tracked : policy.untrackedMemory = false)
    {trees : VarId → Tree} {var : VarId}
    (reads : ∀ used ∈ form.inputs var, (trees used).eval meaning = meaning.env used) :
    (form.definitionTree policy trees var).eval meaning = meaning.env var := by
  obtain ⟨equations, counters⟩ := satisfied
  rw [definitionTree]
  cases read : form.counterRead? var with
  | some next =>
      have worth := counters _ (mem_counterReads_of_counterRead? read)
      simp [Tree.eval, worth]
  | none =>
      cases defined : form.definition? var with
      | none => rfl
      | some statement =>
          obtain ⟨block, inForm, inBlock⟩ := mem_statements_of_definition? defined
          dsimp only
          split
          · rename_i isOutput
            cases result : statement.resultTree policy trees with
            | none => rfl
            | some tree =>
                have machine : ¬ statement.isPhi = true := by
                  intro isPhi
                  rw [Statement.resultTree_of_isPhi isPhi] at result
                  cases result
                simp only [inputs, defined, if_neg machine] at reads
                have word := Statement.resultWord_of_resultTree reads tracked
                  (addresses block inForm statement inBlock) result
                rcases equations block inForm statement inBlock var isOutput with missing | equal
                · rw [word] at missing
                  cases missing
                · exact Option.some.inj (word.symm.trans equal)
          · rfl

end Form

theorem Reading.Denotes.eval_eq {reading : Reading} {var : VarId} {tree : Tree}
    (denotes : reading.Denotes var tree) {meaning : Meaning}
    (satisfied : reading.form.Satisfies meaning) (addresses : reading.form.Addresses)
    (tracked : reading.policy.untrackedMemory = false) :
    tree.eval meaning = meaning.env var := by
  induction denotes with
  | leave isCut => rfl
  | unfold inputs ih => exact satisfied.eval_definitionTree addresses tracked ih

end Ssa

namespace Session

/-- Whatever was asked, a bound variable has a value that is worth its word in every meaning that
satisfies the procedure, even if evaluation was cut off. -/
theorem reached_values_sound {procedure : Procedure} (built : procedure.Built) (policy : Policy)
    (tracked : policy.untrackedMemory = false) (addresses : procedure.ssa.Addresses)
    {meaning : Meaning} (satisfied : procedure.ssa.Satisfies meaning) (requests : List Request) :
    (∀ var, Request.resolve var ∈ requests →
      ∃ value, (reached procedure policy requests).store.valueOf? var = some value) ∧
    ∀ var value, (reached procedure policy requests).store.valueOf? var = some value →
      (Arena.tree (reached procedure policy requests).store.arena value).eval meaning =
        meaning.env var := by
  obtain ⟨answered, sound⟩ := reached_sound built.wellFormed policy (fun _ => True) requests
  refine ⟨answered, fun var value found => ?_⟩
  have denotes := sound (fun _ _ _ => trivial) var value found
  exact denotes.eval_eq satisfied addresses tracked

/-- The first round of the loop, with a memory in which every word is one more than its address. -/
def firstRound : Meaning where
  env := fun var => [10, 0, 10, 8, 72, 9, 145, 145, 0].getD var 0
  memory := fun address => address + 1
  binary
    | .sub, left, right => left - right
    | .mul, left, right => left * right
    | _, left, right => left + right
  unary := fun _ operand => operand
  add := fun _ _ => rfl
  sub := fun _ _ => rfl
  mul := fun _ _ => rfl

theorem reached_values_sound_firstRound :
    Countdown.procedure.ssa.Addresses ∧ Countdown.procedure.ssa.Satisfies firstRound ∧
      ∃ value, (reached Countdown.procedure {} [.operand ⟨1, 3⟩ 0, .resolve 7]).store.valueOf? 7 =
        some value ∧
      (Arena.tree (reached Countdown.procedure {} [.operand ⟨1, 3⟩ 0, .resolve 7]).store.arena
        value).eval firstRound = 145 := by
  have addresses : Countdown.procedure.ssa.Addresses := by decide +kernel
  have satisfied : Countdown.procedure.ssa.Satisfies firstRound := by decide +kernel
  obtain ⟨answered, sound⟩ := reached_values_sound Countdown.built {} rfl addresses satisfied
    [.operand ⟨1, 3⟩ 0, .resolve 7]
  obtain ⟨value, found⟩ := answered 7 (by decide)
  exact ⟨addresses, satisfied, value, found, sound 7 value found⟩

end Session

end SymbolicFlow
