import SyslModel.Command.Arguments
/-!
# Words of a command line

What a command line names is what the command is given: its files in order, and the rule if there is
one.  A word that starts with a dash is read as an option, so a file of such a name has to stand
behind two dashes.  `commandLines` says this of the three commands that read files.
-/

namespace SyslModel.Command

/-- A word that stands for a file wherever it is: there is something in it, and it does not start
with a dash. -/
structure IsPlain (word : String) : Prop where
  /-- There is something in the word. -/
  nonempty : word ≠ ""
  /-- It does not start with a dash. -/
  noDash : word.toList.head? ≠ some '-'

/-- The option that gives a rule. -/
def ruleWords (rule : Rule) : List String := ["--rule", rule.name]

/-- The command lines that name files, and a rule or none. -/
structure CommandLines : Prop where
  /-- Files are checked in the order of the words. -/
  check : ∀ files : List String, (∀ file ∈ files, IsPlain file) →
    ofWords? ("check" :: files) = some (.check files .standard) ∧
      ∀ rule, ofWords? ("check" :: files ++ ruleWords rule) = some (.check files rule)
  /-- One file is parsed, and its tree is pretty if this is asked for. -/
  parse : ∀ file, IsPlain file →
    ofWords? ["parse", file] = some (.parse file .standard false) ∧
      ∀ rule, ofWords? ("parse" :: file :: ruleWords rule) = some (.parse file rule false) ∧
        ofWords? ("parse" :: file :: "--pretty" :: ruleWords rule) = some (.parse file rule true)
  /-- One file is put in its canonical form. -/
  format : ∀ file, IsPlain file → ofWords? ["fmt", file] = some (.format file)
  /-- Behind two dashes a file may have any name. -/
  dashes : ∀ files : List String, (∀ file ∈ files, file ≠ "") →
    (∀ rule, ofWords? ("check" :: ruleWords rule ++ "--" :: files) = some (.check files rule)) ∧
      ∀ file, files = [file] → ofWords? ["fmt", "--", file] = some (.format file) ∧
        ∀ rule, ofWords? ("parse" :: ruleWords rule ++ ["--", file])
          = some (.parse file rule false)

section Words

variable {known : Known} {given : Given} {word : String} {words files : List String} {rule : Rule}

/-- A plain word is a file. -/
theorem readWords_file (h : IsPlain word) : readWords known given false (word :: words) =
    (given.addFile known word).bind fun given => readWords known given false words := by
  have hdash := h.noDash
  rw [readWords]
  split
  · contradiction
  · split
    · next heq => simp [heq] at hdash
    · next heq => simp [heq] at hdash
    · next heq => simp [heq] at hdash
    · rfl

/-- The option with the name of a rule gives the rule. -/
theorem readWords_rule (hknown : known.rule = true) (hrule : given.rule = none)
    (hhelp : given.help = false) : readWords known given false (ruleWords rule ++ words) =
      readWords known { given with rule := some rule } false words := by
  have hword : ("--rule" : String).toList = ['-', '-', 'r', 'u', 'l', 'e'] := by decide
  have hlong : readLong known given ['r', 'u', 'l', 'e'] = some (given, true) := by rfl
  have hgive : given.giveRule known rule.name = some { given with rule := some rule } := by
    rw [Given.giveRule, if_pos ⟨hknown, by rw [hrule]; rfl⟩, Rule.ofName?_name]
    rfl
  rw [ruleWords, List.cons_append, List.cons_append, List.nil_append, readWords]
  simp only [Bool.false_eq_true, ↓reduceIte, hword, hlong, Option.bind_some, hhelp]
  rw [readWords, if_pos rfl, hgive, Option.bind_some, hhelp]

theorem readWords_pretty (hknown : known.pretty = true) (hpretty : given.pretty = false)
    (hhelp : given.help = false) : readWords known given false ("--pretty" :: words) =
      readWords known { given with pretty := true } false words := by
  have hword : ("--pretty" : String).toList = ['-', '-', 'p', 'r', 'e', 't', 't', 'y'] := by decide
  have hlong : readLong known given ['p', 'r', 'e', 't', 't', 'y'] =
      (given.givePretty known).map (·, false) := by rfl
  have hgive : given.givePretty known = some { given with pretty := true } := by
    rw [Given.givePretty, if_pos ⟨hknown, by rw [hpretty]; rfl⟩]
  rw [readWords]
  simp only [Bool.false_eq_true, ↓reduceIte, hword, hlong, hgive, Option.map_some,
    Option.bind_some, hhelp]

/-- Behind two dashes all words are files. -/
theorem readWords_dashes :
    readWords known given false ("--" :: words) = given.addFiles known words := by
  have hword : ("--" : String).toList = ['-', '-'] := by decide
  rw [readWords]
  simp only [Bool.false_eq_true, ↓reduceIte, hword]

theorem addFile_of_takes (htakes : given.takesFile known = true) (h : word ≠ "") :
    given.addFile known word = some { given with files := given.files ++ [word] } := by
  simp [Given.addFile, htakes, h]

/-- Plain words are files, one after the other. -/
theorem readWords_files (hknown : known.fileLimit = none) (h : ∀ file ∈ files, IsPlain file) :
    readWords known given false (files ++ words) =
      readWords known { given with files := given.files ++ files } false words := by
  induction files generalizing given with
  | nil => simp
  | cons file files ih =>
    obtain ⟨hfile, hfiles⟩ := List.forall_mem_cons.1 h
    have htakes : given.takesFile known = true := by rw [Given.takesFile, hknown]
    rw [List.cons_append, readWords_file hfile, addFile_of_takes htakes hfile.nonempty,
      Option.bind_some, ih hfiles]
    simp

theorem addFiles_of_nonempty (hknown : known.fileLimit = none) (h : ∀ file ∈ files, file ≠ "") :
    given.addFiles known files = some { given with files := given.files ++ files } := by
  induction files generalizing given with
  | nil => simp [Given.addFiles]
  | cons file files ih =>
    obtain ⟨hfile, hfiles⟩ := List.forall_mem_cons.1 h
    have htakes : given.takesFile known = true := by rw [Given.takesFile, hknown]
    rw [Given.addFiles, List.foldlM_cons, addFile_of_takes htakes hfile]
    exact (ih hfiles).trans (by simp)

end Words

/-- The only file of a command that takes one. -/
theorem addFile_first {known : Known} {given : Given} {file : String}
    (hknown : known.fileLimit = some 1) (hgiven : given.files = []) (h : file ≠ "") :
    given.addFile known file = some { given with files := [file] } := by
  have htakes : given.takesFile known = true := by
    rw [Given.takesFile, hknown, hgiven]
    rfl
  rw [addFile_of_takes htakes h, hgiven]
  rfl

/-! ## Whole command lines -/

section Lines

variable {words files : List String} {file : String} {rule : Option Rule} {pretty : Bool}

theorem ofWords?_check
    (h : readWords .check .nothing false words = some ⟨files, rule, pretty, false⟩) :
    ofWords? ("check" :: words) = some (.check files (rule.getD .standard)) := by
  simp only [ofWords?, Given.ofWords, h]
  rfl

theorem ofWords?_parse
    (h : readWords .parse .nothing false words = some ⟨[file], rule, pretty, false⟩) :
    ofWords? ("parse" :: words) = some (.parse file (rule.getD .standard) pretty) := by
  simp only [ofWords?, Given.ofWords, h]
  rfl

theorem ofWords?_format
    (h : readWords .format .nothing false words = some ⟨[file], rule, pretty, false⟩) :
    ofWords? ("fmt" :: words) = some (.format file) := by
  simp only [ofWords?, Given.ofWords, h]
  rfl

end Lines

/-- The words of a command line give what they name. -/
theorem commandLines : CommandLines where
  check := by
    intro files hfiles
    have hread (words : List String) : readWords .check .nothing false (files ++ words) =
        readWords .check ⟨files, none, false, false⟩ false words := readWords_files rfl hfiles
    constructor
    · have hnone := hread []
      rw [List.append_nil] at hnone
      exact ofWords?_check hnone
    · intro rule
      have hrule := hread (ruleWords rule ++ [])
      rw [readWords_rule rfl rfl rfl, List.append_nil] at hrule
      exact ofWords?_check hrule
  parse := by
    intro file hfile
    have hread (words : List String) : readWords .parse .nothing false (file :: words) =
        readWords .parse ⟨[file], none, false, false⟩ false words := by
      rw [readWords_file hfile, addFile_first rfl rfl hfile.nonempty]
      rfl
    refine ⟨ofWords?_parse (hread []), fun rule => ⟨?_, ?_⟩⟩
    · have hrule := hread (ruleWords rule ++ [])
      rw [readWords_rule rfl rfl rfl, List.append_nil] at hrule
      exact ofWords?_parse hrule
    · have hrule := hread ("--pretty" :: (ruleWords rule ++ []))
      rw [readWords_pretty rfl rfl rfl, readWords_rule rfl rfl rfl, List.append_nil] at hrule
      exact ofWords?_parse hrule
  format := by
    intro file hfile
    have hread : readWords .format .nothing false [file] = some ⟨[file], none, false, false⟩ := by
      rw [readWords_file hfile, addFile_first rfl rfl hfile.nonempty]
      rfl
    exact ofWords?_format hread
  dashes := by
    intro files hfiles
    constructor
    · intro rule
      have hread : readWords .check .nothing false (ruleWords rule ++ "--" :: files) =
          some ⟨files, some rule, false, false⟩ := by
        rw [readWords_rule rfl rfl rfl, readWords_dashes, addFiles_of_nonempty rfl hfiles]
        rfl
      exact ofWords?_check hread
    · rintro file rfl
      have hfile := hfiles file (List.mem_singleton_self _)
      have hadd (known : Known) (given : Given) (hknown : known.fileLimit = some 1)
          (hgiven : given.files = []) :
          given.addFiles known [file] = some { given with files := [file] } := by
        rw [Given.addFiles, List.foldlM_cons, addFile_first hknown hgiven hfile]
        rfl
      constructor
      · have hread : readWords .format .nothing false ["--", file] =
            some ⟨[file], none, false, false⟩ := by
          rw [readWords_dashes, hadd _ _ rfl rfl]
          rfl
        exact ofWords?_format hread
      · intro rule
        have hread : readWords .parse .nothing false (ruleWords rule ++ ["--", file]) =
            some ⟨[file], some rule, false, false⟩ := by
          rw [readWords_rule rfl rfl rfl, readWords_dashes, hadd _ _ rfl rfl]
          rfl
        exact ofWords?_parse hread

end SyslModel.Command
