import Mathlib.Data.List.TakeWhile
import SchemaTypes.Command.Arguments

/-!
# What words give

The words of a command line give arguments, one after the other: `Arguments.Gives` lists the ways in
which operands, flags and values may be written, in any order. `Arguments.parse?` understands
exactly the command lines that give something, and what it makes of them is what they give.
-/

namespace SchemaTypes.Command

namespace Arguments

/-! ## Ways to write options -/

/-- The flags, with what they set. -/
def flags : List (String × (Arguments → Arguments)) :=
  [("--deep", fun a => { a with deep := some true }),
    ("--no-deep", fun a => { a with deep := some false }),
    ("--export", fun a => { a with exported := some true }),
    ("--no-export", fun a => { a with exported := some false }),
    ("--format", fun a => { a with formatted := some true }),
    ("--no-format", fun a => { a with formatted := some false }),
    ("--help", fun a => { a with help := true })]

/-- The options that take a value, under their long names and their letters, with what they set.
Names add up; of the others the last value counts. -/
def valueOptions : List (String × Option Char × (String → Arguments → Arguments)) :=
  [("--name", some 'n', fun name a => { a with names := a.names ++ [name] }),
    ("--config", some 'c',
      fun value a => { a with checked := Table.put .config value a.checked }),
    ("--default-type", none,
      fun value a => { a with checked := Table.put .defaultType value a.checked })]

/-- A word that is no option. -/
def IsOperand (word : String) : Prop :=
  word = "-" ∨ word.toList.head? ≠ some '-'

/-- A word is the name of an option whose value is the next word. -/
inductive Names (word : String) (set : String → Arguments → Arguments) : Prop where
  | long {short : Option Char} (h : (word, short, set) ∈ valueOptions)
  | short {long : String} {c : Char} (h : (long, some c, set) ∈ valueOptions)
    (hword : word.toList = ['-', c])

/-- A word holds an option with its value. -/
inductive Holds (word : String) (set : Arguments → Arguments) : Prop where
  | long {long value : String} {short : Option Char} {put : String → Arguments → Arguments}
    (h : (long, short, put) ∈ valueOptions) (hword : word = long ++ "=" ++ value)
    (hset : set = put value)
  | short {long value : String} {c : Char} {put : String → Arguments → Arguments}
    (h : (long, some c, put) ∈ valueOptions) (hvalue : value ≠ "")
    (hword : word.toList = '-' :: c :: value.toList) (hset : set = put value)

/-- Words give arguments, when others are given before. -/
inductive Gives : List String → Arguments → Arguments → Prop where
  | nil (a : Arguments) : Gives [] a a
  | operands (rest : List String) (a : Arguments) :
    Gives ("--" :: rest) a { a with operands := a.operands ++ rest }
  | operand {word : String} {rest : List String} {a b : Arguments} (hword : IsOperand word)
    (h : Gives rest { a with operands := a.operands ++ [word] } b) : Gives (word :: rest) a b
  | flag {word : String} {rest : List String} {a b : Arguments} {set : Arguments → Arguments}
    (hword : (word, set) ∈ flags) (h : Gives rest (set a) b) : Gives (word :: rest) a b
  | value {word value : String} {rest : List String} {a b : Arguments}
    {set : String → Arguments → Arguments} (hword : Names word set)
    (h : Gives rest (set value a) b) : Gives (word :: value :: rest) a b
  | holds {word : String} {rest : List String} {a b : Arguments} {set : Arguments → Arguments}
    (hword : Holds word set) (h : Gives rest (set a) b) : Gives (word :: rest) a b

/-! ## Single words -/

theorem longOption?_eq_flag {name : String} {set : Arguments → Arguments} :
    longOption? name = some (.flag set) ↔ (name, set) ∈ flags := by
  unfold longOption? flags
  split <;> simp_all [eq_comm (b := set)]

theorem longOption?_eq_value {name : String} {set : String → Arguments → Arguments} :
    longOption? name = some (.value set) ↔ ∃ short, (name, short, set) ∈ valueOptions := by
  unfold longOption? valueOptions addName setChecked
  split <;> simp_all [eq_comm (b := set)]

theorem shortOption?_eq_some {c : Char} {set : String → Arguments → Arguments} :
    shortOption? c = some set ↔ ∃ long, (long, some c, set) ∈ valueOptions := by
  unfold shortOption? valueOptions addName setChecked
  split <;> simp_all [eq_comm (b := set)]

theorem exists_toList_of_longOption? {name : String} {effect : Effect}
    (h : longOption? name = some effect) : ∃ rest, name.toList = '-' :: '-' :: rest := by
  unfold longOption? at h
  split at h
  case h_11 => cases h
  all_goals exact ⟨_, rfl⟩

theorem decide_ne_equals {cs : List Char} (h : '=' ∉ cs) : ∀ c ∈ cs, decide (c ≠ '=') = true :=
  fun _ hc => decide_eq_true fun heq => h (heq ▸ hc)

theorem splitValue_of_not_mem {cs : List Char} (h : '=' ∉ cs) : splitValue cs = (cs, none) := by
  unfold splitValue
  rw [List.dropWhile_eq_nil_iff.mpr (decide_ne_equals h)]

theorem splitValue_append {front : List Char} (h : '=' ∉ front) (back : List Char) :
    splitValue (front ++ '=' :: back) = (front, some (String.ofList back)) := by
  unfold splitValue
  rw [List.dropWhile_append_of_pos (decide_ne_equals h),
    List.takeWhile_append_of_pos (decide_ne_equals h)]
  simp

/-- A word holds a value if it has an equals sign, and else it does not. -/
theorem splitValue_cases (cs : List Char) :
    splitValue cs = (cs, none) ∨ ∃ front back, cs = front ++ '=' :: back ∧
      splitValue cs = (front, some (String.ofList back)) := by
  by_cases h : '=' ∈ cs
  · obtain ⟨front, back, rfl, hfront⟩ := List.eq_append_cons_of_mem h
    exact .inr ⟨front, back, rfl, splitValue_append hfront back⟩
  · exact .inl (splitValue_of_not_mem h)

namespace Word

/-- What a word is that is taken for something. -/
def IsOf (word : String) : Word → Prop
  | operand => IsOperand word
  | endOfOptions => word = "--"
  | flag set => (word, set) ∈ flags
  | withValue set => Holds word set
  | needsValue set => Names word set
  | invalid => True

theorem isOf_ofShort {word : String} {c : Char} {rest : List Char}
    (h : word.toList = '-' :: c :: rest) : IsOf word (ofShort ('-' :: c :: rest)) := by
  rw [ofShort]
  cases hshort : shortOption? c with
  | none => trivial
  | some set =>
    obtain ⟨long, hmem⟩ := shortOption?_eq_some.mp hshort
    dsimp only
    by_cases hrest : rest = []
    · rw [if_pos hrest]
      exact Names.short hmem (hrest ▸ h)
    · rw [if_neg hrest]
      exact Holds.short hmem (by simpa using hrest) (by simpa using h) rfl

/-- A word is what it is taken for. -/
theorem isOf_ofString (word : String) : IsOf word (ofString word) := by
  unfold ofString
  split
  · next h => exact String.toList_inj.mp h
  · next c rest _ h =>
    rcases splitValue_cases ('-' :: c :: rest) with hsplit | ⟨front, back, hcs, hsplit⟩
    · rw [hsplit]
      have hword : String.ofList ('-' :: c :: rest) = word := by rw [← h, String.ofList_toList]
      dsimp only
      rw [hword]
      cases hlong : longOption? word with
      | none =>
        dsimp only
        split
        · trivial
        · exact isOf_ofShort h
      | some effect =>
        cases effect with
        | flag set => exact longOption?_eq_flag.mp hlong
        | value set =>
          obtain ⟨short, hmem⟩ := longOption?_eq_value.mp hlong
          exact .long hmem
    · rw [hsplit]
      dsimp only
      cases hlong : longOption? (String.ofList front) with
      | none =>
        dsimp only
        split
        · trivial
        · exact isOf_ofShort h
      | some effect =>
        cases effect with
        | flag set => trivial
        | value set =>
          obtain ⟨short, hmem⟩ := longOption?_eq_value.mp hlong
          refine .long hmem ?_ rfl
          rw [← String.toList_inj, h, hcs]
          simp
  · next hne hne' =>
    by_cases hdash : word.toList.head? = some '-'
    · obtain ⟨rest, hrest⟩ := List.head?_eq_some_iff.mp hdash
      cases rest with
      | nil => exact .inl (String.toList_inj.mp hrest)
      | cons c rest => exact absurd hrest (hne' c rest)
    · exact .inr hdash

theorem ofString_of_isOperand {word : String} (h : IsOperand word) : ofString word = operand := by
  rcases h with rfl | h
  · rfl
  · unfold ofString
    split
    · next hlist => exact absurd (by rw [hlist]; rfl) h
    · next hlist => exact absurd (by rw [hlist]; rfl) h
    · rfl

theorem ofString_of_mem_flags {word : String} {set : Arguments → Arguments}
    (h : (word, set) ∈ flags) : ofString word = flag set := by
  simp only [flags, List.mem_cons, List.not_mem_nil, or_false, Prod.mk.injEq] at h
  rcases h with ⟨rfl, rfl⟩ | ⟨rfl, rfl⟩ | ⟨rfl, rfl⟩ | ⟨rfl, rfl⟩ | ⟨rfl, rfl⟩ | ⟨rfl, rfl⟩ |
    ⟨rfl, rfl⟩ <;> rfl

/-- A word of a dash and more is looked up by what stands in front of its equals sign. -/
theorem ofString_eq {word : String} {c : Char} {rest : List Char}
    (h : word.toList = '-' :: c :: rest) (hmore : c = '-' → rest ≠ []) :
    ofString word =
      match longOption? (String.ofList (splitValue ('-' :: c :: rest)).1),
        (splitValue ('-' :: c :: rest)).2 with
      | some (.flag set), none => flag set
      | some (.flag _), some _ => invalid
      | some (.value set), none => needsValue set
      | some (.value set), some value => withValue (set value)
      | none, _ => if c = '-' then invalid else ofShort ('-' :: c :: rest) := by
  unfold ofString
  rw [h]
  split
  · next hlist =>
    obtain ⟨rfl, rfl⟩ := List.cons.inj (List.cons.inj hlist).2
    exact absurd rfl (hmore rfl)
  · next hlist =>
    obtain ⟨rfl, rfl⟩ := List.cons.inj (List.cons.inj hlist).2
    rfl
  · next hne => exact absurd rfl (hne c rest)

/-- What starts with a single dash is no long option. -/
theorem ofString_short {word : String} {c : Char} {rest : List Char}
    (h : word.toList = '-' :: c :: rest) (hc : c ≠ '-') :
    ofString word = ofShort ('-' :: c :: rest) := by
  have hnone : ∀ front back : List Char, '-' :: c :: rest = front ++ back →
      longOption? (String.ofList front) = none := by
    intro front back hsplit
    cases hlong : longOption? (String.ofList front) with
    | none => rfl
    | some effect =>
      obtain ⟨more, hmore⟩ := exists_toList_of_longOption? hlong
      rw [String.toList_ofList] at hmore
      rw [hmore] at hsplit
      exact absurd (List.cons.inj (List.cons.inj hsplit).2).1 hc
  rw [ofString_eq h fun hdash => absurd hdash hc]
  rcases splitValue_cases ('-' :: c :: rest) with hsplit | ⟨front, back, hcs, hsplit⟩
  · rw [hsplit, hnone _ [] (List.append_nil _).symm]
    exact if_neg hc
  · rw [hsplit, hnone _ _ hcs]
    exact if_neg hc

/-- A long option may have its value behind an equals sign. -/
theorem ofString_long {long : String} {put : String → Arguments → Arguments}
    (h : longOption? long = some (.value put)) (heq : '=' ∉ long.toList) (value : String) :
    ofString (long ++ "=" ++ value) = withValue (put value) := by
  obtain ⟨more, hmore⟩ := exists_toList_of_longOption? h
  have hlist : (long ++ "=" ++ value).toList = '-' :: '-' :: (more ++ '=' :: value.toList) := by
    simp [hmore]
  have hsplit := splitValue_append heq value.toList
  rw [hmore, String.ofList_toList] at hsplit
  rw [ofString_eq hlist (by simp)]
  rw [List.cons_append, List.cons_append] at hsplit
  rw [hsplit, ← hmore, String.ofList_toList, h]

theorem ofString_of_names {word : String} {set : String → Arguments → Arguments}
    (h : Names word set) : ofString word = needsValue set := by
  rcases h with ⟨h⟩ | @⟨long, c, h, hword⟩
  · simp only [valueOptions, List.mem_cons, List.not_mem_nil, or_false, Prod.mk.injEq] at h
    rcases h with ⟨rfl, rfl, rfl⟩ | ⟨rfl, rfl, rfl⟩ | ⟨rfl, rfl, rfl⟩ <;> rfl
  · have hshort := shortOption?_eq_some.mpr ⟨long, h⟩
    have hc : c ≠ '-' := by
      rintro rfl
      cases hshort
    rw [ofString_short hword hc, ofShort, hshort]
    rfl

theorem ofString_of_holds {word : String} {set : Arguments → Arguments} (h : Holds word set) :
    ofString word = withValue set := by
  rcases h with @⟨long, value, short, put, h, rfl, rfl⟩ |
    @⟨long, value, c, put, h, hvalue, hword, rfl⟩
  · have heq : '=' ∉ long.toList := by
      simp only [valueOptions, List.mem_cons, List.not_mem_nil, or_false, Prod.mk.injEq] at h
      rcases h with ⟨rfl, -⟩ | ⟨rfl, -⟩ | ⟨rfl, -⟩ <;> decide
    exact ofString_long (longOption?_eq_value.mpr ⟨short, h⟩) heq value
  · have hshort := shortOption?_eq_some.mpr ⟨long, h⟩
    have hc : c ≠ '-' := by
      rintro rfl
      cases hshort
    have hne : value.toList ≠ [] := by simpa using hvalue
    rw [ofString_short hword hc, ofShort, hshort]
    dsimp only
    rw [if_neg hne, String.ofList_toList]

end Word

/-! ## Command lines -/

theorem parseFrom?_eq_some {words : List String} {a b : Arguments} :
    parseFrom? a words = some b ↔ Gives words a b := by
  constructor
  · have hof : ∀ {word : String} {w : Word}, Word.ofString word = w → Word.IsOf word w := by
      rintro word _ rfl
      exact Word.isOf_ofString word
    intro h
    fun_induction parseFrom? a words with
    | case1 a =>
      obtain rfl := Option.some.inj h
      exact .nil a
    | case2 a word rest hword ih => exact .operand (hof hword) (ih h)
    | case3 a word rest hword =>
      obtain rfl := Option.some.inj h
      obtain rfl : word = "--" := hof hword
      exact .operands rest a
    | case4 a word rest set hword ih => exact .flag (hof hword) (ih h)
    | case5 a word rest set hword ih => exact .holds (hof hword) (ih h)
    | case6 | case8 => cases h
    | case7 a word set hword value rest ih => exact .value (hof hword) (ih h)
  · intro h
    induction h with
    | nil a => rfl
    | operands rest a => rfl
    | operand hword _ ih => rw [parseFrom?, Word.ofString_of_isOperand hword, ← ih]
    | flag hword _ ih => rw [parseFrom?, Word.ofString_of_mem_flags hword, ← ih]
    | value hword _ ih => rw [parseFrom?, Word.ofString_of_names hword, ← ih]
    | holds hword _ ih => rw [parseFrom?, Word.ofString_of_holds hword, ← ih]

/-- A command line is understood as the arguments that it gives. -/
theorem parse?_eq_some {words : List String} {a : Arguments} :
    parse? words = some a ↔ Gives words {} a :=
  parseFrom?_eq_some

end Arguments

end SchemaTypes.Command
