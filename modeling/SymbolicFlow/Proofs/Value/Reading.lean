import SymbolicFlow.Proofs.Text.Words
import SymbolicFlow.Value.Render

/-!
# Spelled expressions can be read back

`Tree.spell` writes an expression out with every constant in it; an `absent` part leaves a gap.
An expression can be recovered from its spelling (`spell_inj`), although gaps are empty, negative
constants start like a difference, and an operator comes behind its left operand.

What a text begins with decides what kind of expression it spells (`Kind`).  Only a gap in front of
a minus sign looks like something else, a negative constant; but what follows tells them apart: the
right operand of a difference ends with its group, and a negative constant is followed by an
operator.
-/

set_option autoImplicit false

namespace SymbolicFlow

open Text

/-! ## Spelling -/

def enclose (loaded : Bool) (text : List Char) : List Char :=
  if loaded then '@' :: '[' :: (text ++ [']']) else text

def Tree.spell (label : VarId → String) : Tree → List Char
  | .absent => []
  | .immediate value loaded => enclose loaded (toString value.toInt).toList
  | .register var loaded => enclose loaded (label var).toList
  | .memory address loaded => enclose loaded (['m', 'e', 'm'] ++ ':' :: (hex address).toList)
  | .binary operator left right loaded =>
      enclose loaded ('(' :: (left.spell label ++
        (operator.symbol.toList ++ (right.spell label ++ [')']))))
  | .unary operator operand loaded =>
      enclose loaded (operator.symbol.toList ++ '(' :: (operand.spell label ++ [')']))

/-- Square roots have one operand, and all other operators have two. -/
def Tree.Conventional : Tree → Prop
  | .binary operator left right _ =>
      operator ≠ .sqrt ∧ left.Conventional ∧ right.Conventional
  | .unary operator operand _ => operator = .sqrt ∧ operand.Conventional
  | .absent | .immediate _ _ | .register _ _ | .memory _ _ => True

instance Tree.decidableConventional : (tree : Tree) → Decidable tree.Conventional
  | .absent | .immediate _ _ | .register _ _ | .memory _ _ => .isTrue trivial
  | .binary operator left right _ =>
      have := decidableConventional left
      have := decidableConventional right
      inferInstanceAs (Decidable (operator ≠ .sqrt ∧ left.Conventional ∧ right.Conventional))
  | .unary operator operand _ =>
      have := decidableConventional operand
      inferInstanceAs (Decidable (operator = .sqrt ∧ operand.Conventional))

namespace Tree

theorem spell_eq (label : VarId → String) (tree : Tree) :
    tree.spell label = enclose tree.isLoaded ((tree.remarked false).spell label) := by
  cases tree <;> simp [spell, isLoaded, remarked, enclose]

theorem eq_of_remarked {tree other : Tree} {loaded : Bool} (present : tree ≠ .absent)
    (sameLoaded : tree.isLoaded = other.isLoaded)
    (same : tree.remarked loaded = other.remarked loaded) : tree = other := by
  cases tree <;> cases other <;> simp_all [isLoaded, remarked]

theorem remarked_eq_absent_iff {tree : Tree} {loaded : Bool} :
    tree.remarked loaded = .absent ↔ tree = .absent := by
  cases tree <;> simp [remarked]

theorem conventional_remarked {tree : Tree} {loaded : Bool} :
    (tree.remarked loaded).Conventional ↔ tree.Conventional := by
  cases tree <;> simp [remarked, Conventional]

end Tree

/-! ## What a text begins with -/

inductive Kind where
  | nothing
  | loaded
  | group
  | numeral (negative : Bool)
  | root
  | memory
  | name
  deriving DecidableEq

def Kind.ofWord (word : List Char) : Kind :=
  if word = [] then .nothing
  else if word = ['S', 'Q', 'R', 'T'] then .root
  else if word = ['m', 'e', 'm'] then .memory
  else if word.all Char.isDigit then .numeral false
  else .name

def Kind.ofText (text : List Char) : Kind :=
  if text.head? = some '@' then .loaded
  else if text.head? = some '(' then .group
  else if text.head? = some '-' then .numeral true
  else ofWord (text.takeWhile isWordChar)

def Tree.kind (tree : Tree) : Kind :=
  if tree.isLoaded then .loaded
  else match tree with
    | .absent => .nothing
    | .immediate value _ => .numeral (decide (value.toInt < 0))
    | .register _ _ => .name
    | .memory _ _ => .memory
    | .binary _ _ _ _ => .group
    | .unary _ _ _ => .root

structure Readable (label : VarId → String) : Prop where
  injective : Function.Injective label
  isWord : ∀ var, IsWord (label var).toList
  isName : ∀ var, Kind.ofWord (label var).toList = .name

/-- What can stand behind an operand: nothing, a closing bracket or an operator. -/
def Follows (rest : List Char) : Prop :=
  ∀ char, rest.head? = some char → char ∈ [')', ']', '+', '-', '*', '/', '<', '>']

def Closes (rest : List Char) : Prop := ∀ char, rest.head? = some char → char ∈ [')', ']']

theorem Closes.follows {rest : List Char} (closes : Closes rest) : Follows rest := by
  intro char found
  have bracket := closes char found
  simp only [List.mem_cons, List.not_mem_nil, or_false] at bracket ⊢
  tauto

theorem closes_cons {mark : Char} (bracket : mark ∈ [')', ']']) (rest : List Char) :
    Closes (mark :: rest) := by
  intro char found
  rwa [← Option.some.inj found]

theorem Follows.endsWord {rest : List Char} (follows : Follows rest) : EndsWord rest := by
  have marks : [')', ']', '+', '-', '*', '/', '<', '>'].any isWordChar = false := by decide
  intro char found
  simpa using List.any_eq_false.mp marks char (follows char found)

theorem Kind.ofText_word {word rest : List Char} (isWord : IsWord word) (nonempty : word ≠ [])
    (ends : EndsWord rest) : ofText (word ++ rest) = ofWord word := by
  obtain ⟨first, others, rfl⟩ := List.exists_cons_of_ne_nil nonempty
  have isWordChar := isWord first List.mem_cons_self
  have noMark : first ≠ '@' ∧ first ≠ '(' ∧ first ≠ '-' := by
    refine ⟨?_, ?_, ?_⟩
    all_goals
      intro same
      rw [same] at isWordChar
      exact absurd isWordChar (by decide)
  rw [ofText, takeWhile_append isWord ends]
  simp [noMark]

theorem Kind.ofText_closes {rest : List Char} (closes : Closes rest) : ofText rest = .nothing := by
  cases rest with
  | nil => rfl
  | cons char rest =>
      have bracket := closes char rfl
      simp only [List.mem_cons, List.not_mem_nil, or_false] at bracket
      rcases bracket with rfl | rfl
      · rfl
      · rfl

theorem Kind.ofWord_digits {word : List Char} (nonempty : word ≠ [])
    (digits : ∀ char ∈ word, char.isDigit = true) : ofWord word = .numeral false := by
  have notRoot : word ≠ ['S', 'Q', 'R', 'T'] := by
    rintro rfl
    exact absurd (digits 'S' (by decide)) (by decide)
  have notMemory : word ≠ ['m', 'e', 'm'] := by
    rintro rfl
    exact absurd (digits 'm' (by decide)) (by decide)
  have all : word.all Char.isDigit = true := List.all_eq_true.mpr digits
  rw [ofWord, if_neg nonempty, if_neg notRoot, if_neg notMemory, if_pos all]

theorem Kind.ofWord_name {word : List Char} {mark : Char} (member : mark ∈ word)
    (isMark : mark = '_' ∨ mark = 'v') : ofWord word = .name := by
  have nonempty : word ≠ [] := List.ne_nil_of_mem member
  have notRoot : word ≠ ['S', 'Q', 'R', 'T'] := by
    rintro rfl
    rcases isMark with rfl | rfl <;> simp at member
  have notMemory : word ≠ ['m', 'e', 'm'] := by
    rintro rfl
    rcases isMark with rfl | rfl <;> simp at member
  have notDigits : ¬ word.all Char.isDigit = true := by
    intro all
    have digit := List.all_eq_true.mp all mark member
    rcases isMark with rfl | rfl <;> simp at digit
  rw [ofWord, if_neg nonempty, if_neg notRoot, if_neg notMemory, if_neg notDigits]

section Reading

variable {label : VarId → String}

theorem spell_of_nonneg {value : Int64} (nonneg : ¬ value.toInt < 0) :
    (Tree.immediate value false).spell label = Nat.toDigits 10 value.toInt.natAbs :=
  toList_toString_of_nonneg (Int.not_lt.mp nonneg)

theorem spell_of_neg {value : Int64} (negative : value.toInt < 0) :
    (Tree.immediate value false).spell label = '-' :: Nat.toDigits 10 value.toInt.natAbs :=
  toList_toString_of_neg negative

theorem spell_sqrt (operand : Tree) :
    (Tree.unary .sqrt operand false).spell label =
      ['S', 'Q', 'R', 'T'] ++ '(' :: (operand.spell label ++ [')']) := by
  simp [Tree.spell, enclose, Operator.symbol]

theorem kind_remarked (readable : Readable label) {tree : Tree} (conventional : tree.Conventional)
    (present : tree ≠ .absent) {rest : List Char} (follows : Follows rest) :
    Kind.ofText ((tree.remarked false).spell label ++ rest) = (tree.remarked false).kind := by
  have ends := follows.endsWord
  cases tree with
  | absent => exact absurd rfl present
  | immediate value =>
      rw [Tree.remarked]
      by_cases negative : value.toInt < 0
      · rw [spell_of_neg negative]
        simp [Tree.kind, Tree.isLoaded, negative, Kind.ofText]
      · have digits : ∀ char ∈ Nat.toDigits 10 value.toInt.natAbs, char.isDigit = true :=
          isDigit_toDigits
        rw [spell_of_nonneg negative, Kind.ofText_word (.of_isDigit digits) Nat.toDigits_ne_nil ends,
          Kind.ofWord_digits Nat.toDigits_ne_nil digits]
        simp [Tree.kind, Tree.isLoaded, negative]
  | register var =>
      have nonempty : (label var).toList ≠ [] := by
        intro empty
        have isName := readable.isName var
        rw [empty] at isName
        cases isName
      exact (Kind.ofText_word (readable.isWord var) nonempty ends).trans (readable.isName var)
  | memory address => rfl
  | binary operator left right => rfl
  | unary operator operand =>
      obtain ⟨rfl, _⟩ := conventional
      rw [Tree.remarked, spell_sqrt]
      rfl

theorem kind_spell (readable : Readable label) {tree : Tree} (conventional : tree.Conventional)
    (present : tree ≠ .absent) {rest : List Char} (follows : Follows rest) :
    Kind.ofText (tree.spell label ++ rest) = tree.kind := by
  rw [Tree.spell_eq]
  cases loaded : tree.isLoaded with
  | true => simp [enclose, Kind.ofText, Tree.kind, loaded]
  | false =>
      have same : tree.remarked false = tree := by
        cases tree <;> simp_all [Tree.isLoaded, Tree.remarked]
      have kind := kind_remarked readable conventional present follows
      rw [same] at kind ⊢
      exact kind

variable {tree other : Tree}

theorem kind_eq_loaded_iff : tree.kind = .loaded ↔ tree.isLoaded = true := by
  unfold Tree.kind
  cases tree.isLoaded with
  | true => simp
  | false =>
      cases tree <;> simp

theorem kind_ne_nothing (present : tree ≠ .absent) : tree.kind ≠ .nothing := by
  unfold Tree.kind
  cases tree.isLoaded with
  | true => simp
  | false =>
      cases tree with
      | absent => exact absurd rfl present
      | _ => simp

/-- Expressions of the same kind without brackets are built alike. -/
inductive Alike : Tree → Tree → Prop where
  | immediate (value other : Int64) (sign : value.toInt < 0 ↔ other.toInt < 0) :
      Alike (.immediate value false) (.immediate other false)
  | register (var other : VarId) : Alike (.register var false) (.register other false)
  | memory (address other : UInt64) : Alike (.memory address false) (.memory other false)
  | binary (operator otherOperator : Operator) (left right otherLeft otherRight : Tree) :
      Alike (.binary operator left right false) (.binary otherOperator otherLeft otherRight false)
  | unary (operator otherOperator : Operator) (operand otherOperand : Tree) :
      Alike (.unary operator operand false) (.unary otherOperator otherOperand false)

theorem alike_of_kind (present : tree ≠ .absent) (bare : tree.isLoaded = false)
    (same : tree.kind = other.kind) : Alike tree other := by
  have otherBare : other.isLoaded = false := by
    by_contra loaded
    rw [Bool.not_eq_false] at loaded
    rw [kind_eq_loaded_iff.mpr loaded] at same
    simp [kind_eq_loaded_iff.mp same] at bare
  cases tree <;> cases other <;> simp_all [Tree.kind, Tree.isLoaded]
  · exact .immediate _ _ same
  · exact .register _ _
  · exact .memory _ _
  · exact .binary _ _ _ _ _ _
  · exact .unary _ _ _ _

/-! ## Operators -/

section Operators

variable {operator otherOperator : Operator} {tail otherTail : List Char}

theorem symbol_append_inj (binary : operator ≠ .sqrt) (otherBinary : otherOperator ≠ .sqrt)
    (same : operator.symbol.toList ++ tail = otherOperator.symbol.toList ++ otherTail) :
    operator = otherOperator ∧ tail = otherTail := by
  cases operator <;> cases otherOperator <;> simp_all [Operator.symbol]

theorem follows_symbol (binary : operator ≠ .sqrt) (tail : List Char) :
    Follows (operator.symbol.toList ++ tail) := by
  intro char first
  cases operator with
  | sqrt => exact absurd rfl binary
  | _ =>
      simp [Operator.symbol] at first
      simp [← first]

theorem not_closing_of_symbol (binary : operator ≠ .sqrt) {rest : List Char} :
    operator.symbol.toList ++ tail ≠ ')' :: rest := by
  cases operator <;> simp_all [Operator.symbol]

/-- Only a minus sign can be taken for the start of an operand. -/
theorem kind_symbol (binary : operator ≠ .sqrt) (tail : List Char) :
    operator = .sub ∨ Kind.ofText (operator.symbol.toList ++ tail) = .nothing := by
  cases operator <;> simp_all [Operator.symbol, Kind.ofText, Kind.ofWord, isWordChar, punctuation]

end Operators

/-! ## Reading back -/

/-- Wherever the expression is spelled, no other expression can be read in its place. -/
def Reads (label : VarId → String) (tree : Tree) : Prop :=
  ∀ {other : Tree} {rest otherRest : List Char}, other.Conventional → tree ≠ .absent →
    other ≠ .absent → Follows rest → Follows otherRest →
    tree.spell label ++ rest = other.spell label ++ otherRest → tree = other ∧ rest = otherRest

variable (readable : Readable label)
include readable

section Leaves

variable {rest otherRest : List Char}

theorem kind_eq_of_spell (conventional : tree.Conventional) (otherConventional : other.Conventional)
    (present : tree ≠ .absent) (otherPresent : other ≠ .absent) (follows : Follows rest)
    (otherFollows : Follows otherRest)
    (same : tree.spell label ++ rest = other.spell label ++ otherRest) :
    tree.kind = other.kind := by
  rw [← kind_spell readable conventional present follows, same,
    kind_spell readable otherConventional otherPresent otherFollows]

theorem reads_of_alike (conventional : tree.Conventional) (bare : tree.isLoaded = false)
    (inner : ∀ {other : Tree} {rest otherRest : List Char}, Alike tree other →
      other.Conventional → Follows rest → Follows otherRest →
      tree.spell label ++ rest = other.spell label ++ otherRest →
      tree = other ∧ rest = otherRest) : Reads label tree := by
  intro other rest otherRest otherConventional present otherPresent follows otherFollows same
  have kinds := kind_eq_of_spell readable conventional otherConventional present otherPresent
    follows otherFollows same
  exact inner (alike_of_kind present bare kinds) otherConventional follows otherFollows same

theorem reads_immediate (value : Int64) : Reads label (.immediate value false) := by
  have conventional : (Tree.immediate value false).Conventional := trivial
  apply reads_of_alike readable conventional rfl
  intro other rest otherRest alike _ follows otherFollows same
  cases alike with
  | immediate _ otherValue sign =>
      have numerals : Nat.toDigits 10 value.toInt.natAbs ++ rest =
          Nat.toDigits 10 otherValue.toInt.natAbs ++ otherRest := by
        by_cases negative : value.toInt < 0
        · rw [spell_of_neg negative, spell_of_neg (sign.mp negative)] at same
          exact (List.cons.inj same).2
        · rw [spell_of_nonneg negative, spell_of_nonneg (mt sign.mpr negative)] at same
          exact same
      obtain ⟨digits, rests⟩ := word_append_inj (.of_isDigit isDigit_toDigits)
        (.of_isDigit isDigit_toDigits) follows.endsWord otherFollows.endsWord numerals
      have size := toDigits_inj (by decide) (by decide) digits
      have sameValue : value = otherValue := Int64.toInt_inj.mp (by omega)
      exact ⟨by rw [sameValue], rests⟩

theorem reads_register (var : VarId) : Reads label (.register var false) := by
  have conventional : (Tree.register var false).Conventional := trivial
  apply reads_of_alike readable conventional rfl
  intro other rest otherRest alike _ follows otherFollows same
  cases alike with
  | register _ otherVar =>
      obtain ⟨labels, rests⟩ := word_append_inj (readable.isWord var) (readable.isWord otherVar)
        follows.endsWord otherFollows.endsWord same
      have sameVar := readable.injective (String.toList_inj.mp labels)
      exact ⟨by rw [sameVar], rests⟩

theorem reads_memory (address : UInt64) : Reads label (.memory address false) := by
  have conventional : (Tree.memory address false).Conventional := trivial
  apply reads_of_alike readable conventional rfl
  intro other rest otherRest alike _ follows otherFollows same
  cases alike with
  | memory _ otherAddress =>
      have addresses : (hex address).toList ++ rest = (hex otherAddress).toList ++ otherRest := by
        simpa [Tree.spell, enclose] using same
      obtain ⟨hexes, rests⟩ := word_append_inj (isWord_hex address) (isWord_hex otherAddress)
        follows.endsWord otherFollows.endsWord addresses
      exact ⟨by rw [hex_inj hexes], rests⟩

end Leaves

section Operands

variable {rest otherRest : List Char}

theorem spell_ne_closes (conventional : tree.Conventional) (present : tree ≠ .absent)
    (closes : Closes rest) (follows : Follows otherRest) :
    tree.spell label ++ otherRest ≠ rest := by
  intro same
  have kind := kind_spell readable conventional present follows
  rw [same, Kind.ofText_closes closes] at kind
  exact kind_ne_nothing present kind.symm

omit readable in
theorem operand_inj (reads : Reads label tree) (otherConventional : other.Conventional)
    (follows : Follows rest) (otherFollows : Follows otherRest)
    (noGap : tree ≠ .absent → tree.spell label ++ rest ≠ otherRest)
    (otherNoGap : other ≠ .absent → other.spell label ++ otherRest ≠ rest)
    (same : tree.spell label ++ rest = other.spell label ++ otherRest) :
    tree = other ∧ rest = otherRest := by
  by_cases absent : tree = .absent
  · subst absent
    by_cases otherAbsent : other = .absent
    · subst otherAbsent
      exact ⟨rfl, same⟩
    · exact absurd same.symm (otherNoGap otherAbsent)
  · by_cases otherAbsent : other = .absent
    · subst otherAbsent
      exact absurd same (noGap absent)
    · exact reads otherConventional absent otherAbsent follows otherFollows same

/-- An operand that ends its group can be read back, be it a gap or not. -/
theorem closing_inj (reads : Reads label tree) (conventional : tree.Conventional)
    (otherConventional : other.Conventional) (closes : Closes rest) (otherCloses : Closes otherRest)
    (same : tree.spell label ++ rest = other.spell label ++ otherRest) :
    tree = other ∧ rest = otherRest := by
  apply operand_inj reads otherConventional closes.follows otherCloses.follows _ _ same
  · intro present
    exact spell_ne_closes readable conventional present otherCloses closes.follows
  · intro present
    exact spell_ne_closes readable otherConventional present closes otherCloses.follows

/-- A numeral without a sign that an operand starts with is the whole operand. -/
theorem closing_of_digits (conventional : tree.Conventional) {digits : List Char}
    (areDigits : ∀ char ∈ digits, char.isDigit = true) (nonempty : digits ≠ [])
    (closes : Closes rest) (ends : EndsWord otherRest)
    (same : tree.spell label ++ rest = digits ++ otherRest) : rest = otherRest := by
  have isWord := IsWord.of_isDigit areDigits
  have kind : Kind.ofText (tree.spell label ++ rest) = .numeral false := by
    rw [same, Kind.ofText_word isWord nonempty ends, Kind.ofWord_digits nonempty areDigits]
  by_cases absent : tree = .absent
  · subst absent
    have nothing : Kind.ofText rest = .numeral false := kind
    rw [Kind.ofText_closes closes] at nothing
    cases nothing
  · rw [kind_spell readable conventional absent closes.follows] at kind
    have zero : (Tree.immediate 0 false).kind = .numeral false := by decide
    cases alike_of_kind (by simp) rfl (zero.trans kind.symm) with
    | immediate _ value sign =>
        rw [spell_of_nonneg (mt sign.mpr (by decide))] at same
        exact (word_append_inj (.of_isDigit isDigit_toDigits) isWord closes.follows.endsWord ends
          same).2

variable {operator otherOperator : Operator} {right otherRight : Tree}

theorem spell_ne_symbol (binary : operator ≠ .sqrt) (otherBinary : otherOperator ≠ .sqrt)
    (conventional : tree.Conventional) (present : tree ≠ .absent)
    (rightConventional : right.Conventional) {tail : List Char} :
    tree.spell label ++ (otherOperator.symbol.toList ++ tail) ≠
      operator.symbol.toList ++ (right.spell label ++ ')' :: rest) := by
  intro same
  have kind := kind_spell readable conventional present (follows_symbol otherBinary tail)
  rw [same] at kind
  rcases kind_symbol binary (right.spell label ++ ')' :: rest) with rfl | nothing
  · -- A minus sign: the operand would be a negative constant, and its digits the right operand.
    have one : (Tree.immediate (-1) false).kind = .numeral true := by decide
    have minus : Kind.ofText (Operator.sub.symbol.toList ++ (right.spell label ++ ')' :: rest)) =
      .numeral true := rfl
    cases alike_of_kind (by simp) rfl ((one.trans minus.symm).trans kind) with
    | immediate _ value sign =>
        rw [spell_of_neg (sign.mp (by decide))] at same
        have digits : right.spell label ++ ')' :: rest =
            Nat.toDigits 10 value.toInt.natAbs ++ (otherOperator.symbol.toList ++ tail) :=
          (List.cons.inj same).2.symm
        have behind := closing_of_digits readable rightConventional isDigit_toDigits
          Nat.toDigits_ne_nil (closes_cons (by decide) rest)
          (follows_symbol otherBinary tail).endsWord digits
        exact not_closing_of_symbol otherBinary behind.symm
  · rw [nothing] at kind
    exact kind_ne_nothing present kind.symm

theorem leftOperand_inj (reads : Reads label tree) (conventional : tree.Conventional)
    (otherConventional : other.Conventional) (binary : operator ≠ .sqrt)
    (otherBinary : otherOperator ≠ .sqrt) (rightConventional : right.Conventional)
    (otherRightConventional : otherRight.Conventional)
    (same : tree.spell label ++ (operator.symbol.toList ++ (right.spell label ++ ')' :: rest)) =
      other.spell label ++
        (otherOperator.symbol.toList ++ (otherRight.spell label ++ ')' :: otherRest))) :
    tree = other ∧ operator.symbol.toList ++ (right.spell label ++ ')' :: rest) =
      otherOperator.symbol.toList ++ (otherRight.spell label ++ ')' :: otherRest) := by
  apply operand_inj reads otherConventional (follows_symbol binary _)
    (follows_symbol otherBinary _) _ _ same
  · intro present
    exact spell_ne_symbol readable otherBinary binary conventional present otherRightConventional
  · intro present
    exact spell_ne_symbol readable binary otherBinary otherConventional present rightConventional

end Operands

theorem reads_binary {operator : Operator} {left right : Tree}
    (conventional : (Tree.binary operator left right false).Conventional)
    (readsLeft : Reads label left) (readsRight : Reads label right) :
    Reads label (.binary operator left right false) := by
  apply reads_of_alike readable conventional rfl
  intro other rest otherRest alike otherConventional _ _ same
  cases alike with
  | binary _ otherOperator _ _ otherLeft otherRight =>
      obtain ⟨isBinary, leftConventional, rightConventional⟩ := conventional
      obtain ⟨otherIsBinary, otherLeftConventional, otherRightConventional⟩ := otherConventional
      have inner : left.spell label ++
            (operator.symbol.toList ++ (right.spell label ++ ')' :: rest)) =
          otherLeft.spell label ++
            (otherOperator.symbol.toList ++ (otherRight.spell label ++ ')' :: otherRest)) := by
        simpa [Tree.spell, enclose] using same
      obtain ⟨sameLeft, tails⟩ := leftOperand_inj readable readsLeft leftConventional
        otherLeftConventional isBinary otherIsBinary rightConventional otherRightConventional inner
      obtain ⟨sameOperator, rights⟩ := symbol_append_inj isBinary otherIsBinary tails
      have closes : ∀ behind, Closes (')' :: behind) := closes_cons (by decide)
      obtain ⟨sameRight, rests⟩ := closing_inj readable readsRight rightConventional
        otherRightConventional (closes _) (closes _) rights
      rw [sameLeft, sameOperator, sameRight]
      exact ⟨rfl, (List.cons.inj rests).2⟩

theorem reads_unary {operator : Operator} {operand : Tree}
    (conventional : (Tree.unary operator operand false).Conventional)
    (reads : Reads label operand) : Reads label (.unary operator operand false) := by
  apply reads_of_alike readable conventional rfl
  intro other rest otherRest alike otherConventional _ _ same
  cases alike with
  | unary _ otherOperator _ otherOperand =>
      obtain ⟨rfl, operandConventional⟩ := conventional
      obtain ⟨rfl, otherOperandConventional⟩ := otherConventional
      have inner : operand.spell label ++ ')' :: rest =
          otherOperand.spell label ++ ')' :: otherRest := by
        simpa [Tree.spell, enclose] using same
      have closes : ∀ behind, Closes (')' :: behind) := closes_cons (by decide)
      obtain ⟨sameOperand, rests⟩ := closing_inj readable reads operandConventional
        otherOperandConventional (closes _) (closes _) inner
      rw [sameOperand]
      exact ⟨rfl, (List.cons.inj rests).2⟩

theorem reads_of_remarked (conventional : tree.Conventional)
    (reads : Reads label (tree.remarked false)) : Reads label tree := by
  intro other rest otherRest otherConventional present otherPresent follows otherFollows same
  have kinds := kind_eq_of_spell readable conventional otherConventional present otherPresent
    follows otherFollows same
  have sameLoaded : tree.isLoaded = other.isLoaded := by
    rw [Bool.eq_iff_iff, ← kind_eq_loaded_iff, ← kind_eq_loaded_iff, kinds]
  have read : ∀ {behind otherBehind : List Char}, Follows behind → Follows otherBehind →
      (tree.remarked false).spell label ++ behind = (other.remarked false).spell label ++ otherBehind →
      tree = other ∧ behind = otherBehind := by
    intro behind otherBehind follows otherFollows same
    obtain ⟨remarked, rests⟩ := reads (Tree.conventional_remarked.mpr otherConventional)
      (mt Tree.remarked_eq_absent_iff.mp present)
      (mt Tree.remarked_eq_absent_iff.mp otherPresent) follows otherFollows same
    exact ⟨Tree.eq_of_remarked present sameLoaded remarked, rests⟩
  rw [Tree.spell_eq label tree, Tree.spell_eq label other, ← sameLoaded] at same
  cases loaded : tree.isLoaded with
  | false =>
      rw [loaded] at same
      exact read follows otherFollows same
  | true =>
      have inner : (tree.remarked false).spell label ++ ']' :: rest =
          (other.remarked false).spell label ++ ']' :: otherRest := by
        simpa [loaded, enclose] using same
      have closes : ∀ behind, Closes (']' :: behind) := closes_cons (by decide)
      obtain ⟨sameTree, rests⟩ := read (closes _).follows (closes _).follows inner
      exact ⟨sameTree, (List.cons.inj rests).2⟩

theorem reads_of_conventional (conventional : tree.Conventional) : Reads label tree := by
  induction tree with
  | absent => exact fun _ present => absurd rfl present
  | immediate value => exact reads_of_remarked readable conventional (reads_immediate readable value)
  | register var => exact reads_of_remarked readable conventional (reads_register readable var)
  | memory address => exact reads_of_remarked readable conventional (reads_memory readable address)
  | binary operator left right loaded readsLeft readsRight =>
      apply reads_of_remarked readable conventional
      exact reads_binary readable conventional (readsLeft conventional.2.1)
        (readsRight conventional.2.2)
  | unary operator operand loaded reads =>
      apply reads_of_remarked readable conventional
      exact reads_unary readable conventional (reads conventional.2)

/-- Expressions that are spelled alike are equal. -/
theorem spell_inj (conventional : tree.Conventional) (otherConventional : other.Conventional)
    (same : tree.spell label = other.spell label) : tree = other := by
  have nothing : Closes [] := by simp [Closes]
  have reads : Reads label tree := reads_of_conventional readable conventional
  apply (closing_inj readable reads conventional otherConventional nothing nothing _).1
  rw [same]

end Reading

end SymbolicFlow
