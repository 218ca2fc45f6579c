import SyslModel.Command.Report
import SyslModel.Proofs.Command.Words
import SyslModel.Proofs.Diagnostics
/-!
# The commands agree on which files are valid

Three commands decide on their own whether a file is valid.  `check` asks for the diagnostics, the
other two for a value without diagnostics.  They agree because a missing value never comes without a
diagnostic, by whatever rule a source is parsed.

`CommandsAgree` says what the commands answer, for any contents of files: when they succeed, which
lines `check` writes and for which file, and that the other two write nothing when they fail.  What
`check` writes for several files is what it writes for each by itself, one after the other.  Only
without files is there nothing of a file to write: then `check` asks for one.
-/

namespace SyslModel

open Command

/-! ## Files and what is said of them -/

/-- The bytes under file names, where there are some. -/
abbrev Contents := String → Except ReadError ByteArray

/-- Reading files of these contents as texts. -/
def Contents.reader (contents : Contents) : Reader := fun file => contents file >>= decodeBytes

/-- The bytes of the file encode a text in which no defect is found. -/
def ValidFile (contents : Contents) (rule : Rule) (file : String) : Prop :=
  ∃ source : String, contents file = .ok source.toUTF8 ∧ (parseRule source rule).diagnostics = []

/-- The lines that complain about one file. -/
inductive Complains (contents : Contents) (rule : Rule) (file : String) : List String → Prop
  /-- There is no file of this name that could be read. -/
  | unreadable {e : ReadError} : contents file = .error e →
      Complains contents rule file ["ERROR: cannot read " ++ file ++ ": " ++ e.message]
  /-- The bytes encode no text. -/
  | notText {bytes : ByteArray} : contents file = .ok bytes →
      (∀ source : String, source.toUTF8 ≠ bytes) → Complains contents rule file
        ["ERROR: cannot read " ++ file ++ ": " ++ "stream did not contain valid UTF-8"]
  /-- There are defects, and each has its line. -/
  | invalid {source : String} : contents file = .ok source.toUTF8 →
      (parseRule source rule).diagnostics ≠ [] → Complains contents rule file
        ((file ++ " is not a valid Sysl model:")
          :: (parseRule source rule).diagnostics.map fun d => " - " ++ d.display)
  /-- There is nothing to complain about. -/
  | valid : ValidFile contents rule file → Complains contents rule file []

open Classical in
/-- What the commands answer on files of any contents. -/
structure CommandsAgree (contents : Contents) : Prop where
  /-- Checking succeeds exactly if there is a file and all files are valid. -/
  status : ∀ files rule, (run contents.reader (.check files rule)).status =
    if files ≠ [] ∧ ∀ file ∈ files, ValidFile contents rule file then 0 else 1
  /-- It writes a line for each valid file, in order. -/
  output : ∀ files rule, (run contents.reader (.check files rule)).output =
    String.join ((files.filter fun file => ValidFile contents rule file).map
      (· ++ " is a valid Sysl model!\n"))
  /-- It complains about each file, in order. -/
  complaints : ∀ files rule, files ≠ [] → ∃ lines,
    List.Forall₂ (Complains contents rule) files lines ∧
    (run contents.reader (.check files rule)).complaints = lines.flatten
  /-- Without files it asks for one. -/
  noFile : ∀ rule, (run contents.reader (.check [] rule)).complaints = ["ERROR: Must provide file"]
  /-- The answer for more files is that for the first and that for the others. -/
  concat : ∀ first second rule, first ≠ [] → second ≠ [] →
    run contents.reader (.check (first ++ second) rule) =
      (run contents.reader (.check first rule)).append (run contents.reader (.check second rule))
  /-- Only the files that are named have a part in it. -/
  named : ∀ (others : Contents) files rule, (∀ file ∈ files, others file = contents file) →
    run others.reader (.check files rule) = run contents.reader (.check files rule)
  /-- Parsing a file succeeds exactly if checking it does. -/
  parse : ∀ file rule pretty, (run contents.reader (.parse file rule pretty)).status =
    (run contents.reader (.check [file] rule)).status
  /-- So does putting it in its canonical form. -/
  format : ∀ file, (run contents.reader (.format file)).status =
    (run contents.reader (.check [file] .standard)).status
  /-- Where these two fail, they write nothing. -/
  silent : ∀ file,
    (∀ rule pretty, (run contents.reader (.parse file rule pretty)).status = 1 →
      (run contents.reader (.parse file rule pretty)).output = "") ∧
    ((run contents.reader (.format file)).status = 1 →
      (run contents.reader (.format file)).output = "")
  /-- A canonical form is that of a model. -/
  formatted : ∀ file, (run contents.reader (.format file)).status = 0 →
    ∃ source m, contents file = .ok (String.toUTF8 source) ∧
      (parseModel source).value = some m ∧
      (run contents.reader (.format file)).output = m.canonical 0

/-! ## Texts of files -/

theorem fromUTF8?_eq_some_iff {bytes : ByteArray} {source : String} :
    String.fromUTF8? bytes = some source ↔ source.toUTF8 = bytes := by
  constructor
  · intro h
    rw [String.fromUTF8?, Option.dite_none_right_eq_some] at h
    obtain ⟨hvalid, h⟩ := h
    obtain rfl := Option.some.inj h
    rfl
  · rintro rfl
    rw [String.fromUTF8?, String.toUTF8_eq_toByteArray, dif_pos source.isValidUTF8]
    rfl

/-- What can come of reading a file. -/
inductive Contents.Reads (contents : Contents) (file : String) : Except ReadError String → Prop
  /-- There is no file. -/
  | unreadable {e : ReadError} : contents file = .error e → Reads contents file (.error e)
  /-- The bytes encode no text. -/
  | notText {bytes : ByteArray} : contents file = .ok bytes →
      (∀ source : String, source.toUTF8 ≠ bytes) → Reads contents file (.error .notText)
  /-- The bytes encode a text. -/
  | text {source : String} : contents file = .ok source.toUTF8 → Reads contents file (.ok source)

theorem Contents.reads (contents : Contents) (file : String) :
    contents.Reads file (contents.reader file) := by
  rw [reader]
  cases hbytes : contents file with
  | error e => exact .unreadable hbytes
  | ok bytes =>
    show contents.Reads file (decodeBytes bytes)
    rw [decodeBytes]
    cases htext : String.fromUTF8? bytes with
    | none =>
      refine .notText hbytes fun source hsource => ?_
      rw [fromUTF8?_eq_some_iff.2 hsource] at htext
      cases htext
    | some source =>
      obtain rfl := fromUTF8?_eq_some_iff.1 htext
      exact .text hbytes

/-- A result is the value. -/
theorem Parsed.value_of_result {α : Type} {parsed : Parsed α} {value : α}
    (h : parsed.result = .ok value) : parsed.value = some value := by
  obtain ⟨_ | value, diagnostics⟩ := parsed
  · cases h
  · cases diagnostics with
    | nil => rw [Except.ok.inj h]
    | cons d others => cases h

theorem validFile_iff {contents : Contents} {rule : Rule} {file source : String}
    (h : contents file = .ok source.toUTF8) :
    ValidFile contents rule file ↔ (parseRule source rule).diagnostics = [] := by
  constructor
  · rintro ⟨text, htext, hvalid⟩
    have heq : some text = some source := by
      rw [← fromUTF8?_eq_some_iff.2 (Except.ok.inj (htext.symm.trans h)),
        fromUTF8?_eq_some_iff.2 rfl]
    obtain rfl := Option.some.inj heq
    exact hvalid
  · exact fun hvalid => ⟨source, h, hvalid⟩

theorem not_validFile {contents : Contents} {rule : Rule} {file : String}
    (h : ∀ source : String, contents file ≠ .ok source.toUTF8) : ¬ ValidFile contents rule file :=
  fun ⟨source, hsource, _⟩ => h source hsource

/-! ## One file -/

section OneFile

variable (contents : Contents) (rule : Rule) (file : String)

/-- The report on a file that is checked. -/
inductive CheckedFile : Report → Prop
  /-- The file is valid. -/
  | valid : ValidFile contents rule file →
      CheckedFile ⟨true, [.result (file ++ " is a valid Sysl model!\n")]⟩
  /-- It is not, and nothing but complaints is written. -/
  | invalid {report : Report} : ¬ ValidFile contents rule file → report.ok = false →
      report.output = "" → Complains contents rule file report.complaints → CheckedFile report

/-- The report on a file that is displayed. -/
inductive DisplayedFile (write : Fragment → Option String) : Report → Prop
  /-- The file is valid, so there is a fragment to be written. -/
  | valid {source text : String} {fragment : Fragment} : contents file = .ok source.toUTF8 →
      ValidFile contents rule file → (parseRule source rule).value = some fragment →
      write fragment = some text → DisplayedFile write ⟨true, [.result text]⟩
  /-- It is not, and nothing is written. -/
  | invalid {report : Report} : ¬ ValidFile contents rule file → report.ok = false →
      report.output = "" → DisplayedFile write report

/-- Defects are not written as results. -/
theorem output_defects (ds : List Diagnostic) : Report.output ⟨false, ds.map .defect⟩ = "" := by
  simp [Report.output, List.filterMap_map]

/-- Lines of complaint with defects behind them. -/
theorem complaints_and_defects (first : String) (ds : List Diagnostic) :
    Report.output ⟨false, .complaint first :: ds.map (fun d => .complaint (" - " ++ d.display))
      ++ ds.map .defect⟩ = "" ∧
    Report.complaints ⟨false, .complaint first :: ds.map (fun d => .complaint (" - " ++ d.display))
      ++ ds.map .defect⟩ = first :: ds.map fun d => " - " ++ d.display := by
  constructor
  · simp [Report.output, List.filterMap_map]
  · simp [Report.complaints, List.filterMap_map]

theorem checkFile_spec :
    CheckedFile contents rule file (checkFile contents.reader rule file) := by
  have hreads := contents.reads file
  rw [checkFile]
  generalize contents.reader file = result at hreads
  cases hreads with
  | unreadable h =>
    refine .invalid (not_validFile fun source => ?_) rfl rfl (.unreadable h)
    rw [h]
    nofun
  | notText h hnone =>
    refine .invalid (not_validFile fun source hsource => ?_) rfl rfl (.notText h hnone)
    exact hnone source (Except.ok.inj (hsource.symm.trans h))
  | @text source h =>
    by_cases hvalid : (parseRule source rule).diagnostics = []
    · have hok : (parseRule source rule).isOk = true := List.isEmpty_iff.2 hvalid
      simp only [hok, ↓reduceIte]
      exact .valid ((validFile_iff h).2 hvalid)
    · have hok : (parseRule source rule).isOk = false := by
        rw [Parsed.isOk, List.isEmpty_eq_false_iff]
        exact hvalid
      obtain ⟨houtput, hcomplaints⟩ := complaints_and_defects
        (file ++ " is not a valid Sysl model:") (parseRule source rule).diagnostics
      simp only [hok, Bool.false_eq_true, ↓reduceIte]
      refine .invalid (mt (validFile_iff h).1 hvalid) rfl houtput ?_
      rw [hcomplaints]
      exact .invalid h hvalid

/-- There is a way to write whatever is parsed by a rule. -/
def Writes (write : Fragment → Option String) : Prop :=
  ∀ (source : String) (fragment : Fragment), (parseRule source rule).value = some fragment →
    ∃ text, write fragment = some text

/-- A display that can write all that is parsed succeeds on the files that are valid. -/
theorem display_spec {write : Fragment → Option String} (hwrite : Writes rule write) :
    DisplayedFile contents rule file write (display contents.reader rule file write) := by
  have hreads := contents.reads file
  rw [display]
  generalize contents.reader file = result at hreads
  cases hreads with
  | unreadable h =>
    refine .invalid (not_validFile fun source => ?_) rfl rfl
    rw [h]
    nofun
  | notText h hnone =>
    refine .invalid (not_validFile fun source hsource => ?_) rfl rfl
    exact hnone source (Except.ok.inj (hsource.symm.trans h))
  | @text source h =>
    -- A missing value comes with a diagnostic, so there is a result where no defect is found.
    have hiff : (∃ value, (parseRule source rule).result = .ok value) ↔
        (parseRule source rule).diagnostics = [] :=
      Parsed.result_ok_iff fun hnone => (parseRule_value_eq_none hnone).2
    cases hresult : (parseRule source rule).result with
    | ok fragment =>
      have hvalid := hiff.1 ⟨fragment, hresult⟩
      have hvalue := Parsed.value_of_result hresult
      obtain ⟨text, htext⟩ := hwrite source fragment hvalue
      simp only [hresult, htext]
      exact .valid h ((validFile_iff h).2 hvalid) hvalue htext
    | error ds =>
      simp only [hresult]
      refine .invalid (mt (validFile_iff h).1 fun hvalid => ?_) rfl (output_defects ds)
      obtain ⟨value, hvalue⟩ := hiff.2 hvalid
      cases hvalue.symm.trans hresult

variable {contents rule file}

theorem CheckedFile.ok_iff {report : Report} (h : CheckedFile contents rule file report) :
    report.ok = true ↔ ValidFile contents rule file := by
  cases h with
  | valid hvalid => exact ⟨fun _ => hvalid, fun _ => rfl⟩
  | invalid hinvalid hok _ _ => simp [hok, hinvalid]

theorem CheckedFile.complains {report : Report} (h : CheckedFile contents rule file report) :
    Complains contents rule file report.complaints := by
  cases h with
  | valid hvalid => exact .valid hvalid
  | invalid _ _ _ hcomplains => exact hcomplains

theorem DisplayedFile.ok_iff {write : Fragment → Option String} {report : Report}
    (h : DisplayedFile contents rule file write report) :
    report.ok = true ↔ ValidFile contents rule file := by
  cases h with
  | valid _ hvalid _ _ => exact ⟨fun _ => hvalid, fun _ => rfl⟩
  | invalid hinvalid hok _ => simp [hok, hinvalid]

theorem DisplayedFile.silent {write : Fragment → Option String} {report : Report}
    (h : DisplayedFile contents rule file write report) (hstatus : report.status = 1) :
    report.output = "" := by
  cases h with
  | valid _ _ _ _ => cases hstatus
  | invalid _ _ houtput => exact houtput

end OneFile

/-! ## Many files -/

namespace Report

theorem output_append (first second : Report) :
    (first.append second).output = first.output ++ second.output := by
  simp [append, output, List.filterMap_append, String.join_append]

theorem complaints_append (first second : Report) :
    (first.append second).complaints = first.complaints ++ second.complaints := by
  simp [append, complaints, List.filterMap_append]

theorem append_assoc (first second third : Report) :
    (first.append second).append third = first.append (second.append third) := by
  simp [append, Bool.and_assoc]

theorem status_eq {report : Report} {p : Prop} [Decidable p] (h : report.ok = true ↔ p) :
    report.status = if p then 0 else 1 :=
  if_congr h rfl rfl

end Report

/-- The reports on files, one after the other. -/
def reports (read : Reader) (rule : Rule) (files : List String) : Report :=
  files.foldr (fun file report => (checkFile read rule file).append report) ⟨true, []⟩

section ManyFiles

variable {contents : Contents} {rule : Rule} {files : List String}

theorem checkFiles_eq {read : Reader} (h : files ≠ []) :
    run read (.check files rule) = reports read rule files := by
  rw [run, checkFiles, if_neg (mt List.isEmpty_iff.1 h)]
  rfl

theorem checkFiles_singleton (read : Reader) (file : String) :
    (run read (.check [file] rule)).ok = (checkFile read rule file).ok := by
  rw [checkFiles_eq (List.cons_ne_nil _ _)]
  exact Bool.and_true _

theorem reports_cons (read : Reader) (file : String) (files : List String) :
    reports read rule (file :: files) =
      (checkFile read rule file).append (reports read rule files) := rfl

theorem reports_append (read : Reader) (first second : List String) :
    reports read rule (first ++ second) =
      (reports read rule first).append (reports read rule second) := by
  induction first with
  | nil => simp [reports, Report.append]
  | cons file first ih =>
    rw [List.cons_append, reports_cons, reports_cons, ih, Report.append_assoc]

theorem reports_congr {read other : Reader} (h : ∀ file ∈ files, other file = read file) :
    reports other rule files = reports read rule files := by
  induction files with
  | nil => rfl
  | cons file files ih =>
    obtain ⟨hfile, hfiles⟩ := List.forall_mem_cons.1 h
    have hfirst : checkFile other rule file = checkFile read rule file := by
      rw [checkFile, checkFile, hfile]
    rw [reports_cons, reports_cons, hfirst, ih hfiles]

/-- All is well exactly if every file is valid. -/
theorem reports_ok_iff : (reports contents.reader rule files).ok = true ↔
    ∀ file ∈ files, ValidFile contents rule file := by
  induction files with
  | nil => simp [reports]
  | cons file files ih =>
    rw [List.forall_mem_cons, ← ih, ← (checkFile_spec contents rule file).ok_iff, reports_cons,
      Report.append, Bool.and_eq_true]

open Classical in
/-- A line is written for every valid file, and nothing else. -/
theorem reports_output : (reports contents.reader rule files).output =
    String.join ((files.filter fun file => ValidFile contents rule file).map
      (· ++ " is a valid Sysl model!\n")) := by
  induction files with
  | nil => rfl
  | cons file files ih =>
    rw [reports_cons, Report.output_append, ih]
    have hspec := checkFile_spec contents rule file
    generalize checkFile contents.reader rule file = report at hspec
    cases hspec with
    | valid hvalid => simp [Report.output, hvalid, String.join_cons]
    | invalid hinvalid _ houtput _ => simp [houtput, hinvalid]

/-- The complaints are those about the files, one after the other. -/
theorem reports_complaints : ∃ lines, List.Forall₂ (Complains contents rule) files lines ∧
    (reports contents.reader rule files).complaints = lines.flatten := by
  induction files with
  | nil => exact ⟨[], .nil, rfl⟩
  | cons file files ih =>
    obtain ⟨lines, hlines, heq⟩ := ih
    refine ⟨_ :: lines, .cons (checkFile_spec contents rule file).complains hlines, ?_⟩
    rw [reports_cons, Report.complaints_append, heq, List.flatten_cons]

end ManyFiles

/-! ## The commands -/

/-- Everything can be written as JSON. -/
theorem writes_jsonLines (rule : Rule) (pretty : Bool) :
    Writes rule (some ∘ jsonLines pretty) := fun _ _ _ => ⟨_, rfl⟩

/-- What is parsed by the standard rule is a model. -/
theorem parseRule_standard {source : String} {fragment : Fragment}
    (h : (parseRule source .standard).value = some fragment) :
    ∃ m, fragment = .model m ∧ (parseModel source).value = some m := by
  obtain ⟨m, hm⟩ : ∃ m, fragment = .model m := ⟨_, (Option.some.inj h).symm⟩
  subst hm
  refine ⟨m, rfl, ?_⟩
  show (parseRule source .model).value.bind Fragment.model? = some m
  rw [show (parseRule source .model).value = _ from h]
  rfl

/-- So there is no file that is parsed and has no canonical form. -/
theorem writes_modelText : Writes .standard modelText := by
  intro source fragment h
  obtain ⟨m, rfl, -⟩ := parseRule_standard h
  exact ⟨m.canonical 0, rfl⟩

theorem display_status (contents : Contents) (file : String) {rule : Rule}
    {write : Fragment → Option String} (hwrite : Writes rule write) :
    (display contents.reader rule file write).status =
      (run contents.reader (.check [file] rule)).status := by
  have hdisplay := (display_spec contents rule file hwrite).ok_iff
  have hcheck := (checkFile_spec contents rule file).ok_iff
  rw [← checkFiles_singleton] at hcheck
  rw [Report.status, Report.status, Bool.eq_iff_iff.2 (hdisplay.trans hcheck.symm)]

open Classical in
/-- Whatever the contents of the files are, the commands agree on them. -/
theorem commandsAgree (contents : Contents) : CommandsAgree contents where
  status := by
    intro files rule
    apply Report.status_eq
    by_cases hfiles : files = []
    · simp [hfiles, run, checkFiles]
    · rw [checkFiles_eq hfiles, reports_ok_iff, and_iff_right hfiles]
  output := by
    intro files rule
    by_cases hfiles : files = []
    · subst hfiles
      rfl
    · rw [checkFiles_eq hfiles, reports_output]
  complaints := by
    intro files rule hfiles
    rw [checkFiles_eq hfiles]
    exact reports_complaints
  noFile _ := rfl
  concat := by
    intro first second rule hfirst hsecond
    have happend : first ++ second ≠ [] := List.append_ne_nil_of_left_ne_nil hfirst _
    rw [checkFiles_eq hfirst, checkFiles_eq hsecond, checkFiles_eq happend, reports_append]
  named := by
    intro others files rule hsame
    by_cases hfiles : files = []
    · subst hfiles
      rfl
    · rw [checkFiles_eq hfiles, checkFiles_eq hfiles]
      apply reports_congr
      intro file hfile
      rw [Contents.reader, Contents.reader, hsame file hfile]
  parse file rule pretty := display_status contents file (writes_jsonLines rule pretty)
  format file := display_status contents file writes_modelText
  silent := by
    intro file
    refine ⟨fun rule pretty => ?_, ?_⟩
    · exact (display_spec contents rule file (writes_jsonLines rule pretty)).silent
    · exact (display_spec contents .standard file writes_modelText).silent
  formatted := by
    intro file hstatus
    have hspec := display_spec contents .standard file writes_modelText
    rw [run] at hstatus ⊢
    generalize display contents.reader .standard file modelText = report at hspec hstatus
    cases hspec with
    | valid htext _ hvalue hwritten =>
      obtain ⟨m, rfl, hm⟩ := parseRule_standard hvalue
      obtain rfl := Option.some.inj hwritten
      exact ⟨_, m, htext, hm, by simp [Report.output]⟩
    | invalid _ hok _ => simp [Report.status, hok] at hstatus

/-- The command line: what its words stand for, and what is answered to them. -/
structure CommandLineAgreement : Prop where
  /-- What the words of a line stand for. -/
  words : CommandLines
  /-- What the commands answer, whatever the contents of the files are. -/
  answers : ∀ contents : Contents, CommandsAgree contents
  /-- However files are read as texts, it is by reading some contents. -/
  readers : ∀ read : Reader, ∃ contents : Contents, read = contents.reader

/-- The commands of a command line agree on which files are valid. -/
theorem commandLine_agreement : CommandLineAgreement where
  words := commandLines
  answers := commandsAgree
  readers := by
    intro read
    refine ⟨fun file => (read file).map String.toUTF8, funext fun file => ?_⟩
    rw [Contents.reader]
    cases read file with
    | error e => rfl
    | ok source =>
      show _ = decodeBytes source.toUTF8
      rw [decodeBytes, fromUTF8?_eq_some_iff.2 rfl]

/-- Without files there is a line all the same, and it is about none of them. -/
theorem not_complaints_noFile : ¬ ∀ (contents : Contents) (files : List String) (rule : Rule),
    ∃ lines, List.Forall₂ (Complains contents rule) files lines ∧
      (run contents.reader (.check files rule)).complaints = lines.flatten := by
  intro h
  obtain ⟨lines, hlines, heq⟩ := h (fun _ => .error .notFound) [] .standard
  cases hlines
  cases heq

end SyslModel
