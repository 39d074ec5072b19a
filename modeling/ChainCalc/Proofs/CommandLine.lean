import ChainCalc.Proofs.InputSource

/-!
# A text on the command line

The options of a command may be followed by two dashes and the text, which may then have dashes of
its own. The words in front are read as if they stood alone (`Argument.ofWords?_append_dashes`), so
the command is the one that reads standard input when nothing is added, with another source. What it
reports on a text therefore does not depend on how the text is handed over
(`runProgram_eq_of_contents`).
-/

namespace ChainCalc

theorem Argument.ofWords?_append_dashes {options : List String} (h : "--" ∉ options)
    (words : List String) :
    ofWords? (options ++ "--" :: words) =
      (ofWords? options).map (· ++ words.map contents) := by
  fun_induction ofWords? options with
  | case1 => rfl
  | case2 words => simp at h
  | case3 value rest ih =>
    have hrest : "--" ∉ rest := by simp_all
    simp only [List.cons_append, ofWords?, ih hrest]
    cases readLimit? value.toList <;> cases ofWords? rest <;> rfl
  | case4 word rest hdashes hdepth ih =>
    have hrest : "--" ∉ rest := fun hmem => h (List.mem_cons_of_mem _ hmem)
    by_cases hword : word = "--max-depth"
    · subst hword
      -- the limit would be the two dashes
      cases rest with
      | cons value rest => exact (hdepth value rest rfl rfl).elim
      | nil => rfl
    · have hcons : ofWords? (word :: (rest ++ "--" :: words)) =
          (do return (← ofWord? word) ++ (← ofWords? (rest ++ "--" :: words))) := by
        rw [ofWords?]
        · exact hdashes
        · exact fun _ _ hdepth => absurd hdepth hword
      rw [List.cons_append, hcons, ih hrest]
      cases ofWord? word <;> cases ofWords? rest <;> simp

theorem Argument.ofWords?_file (words : List String) :
    ofWords? ("--file" :: words) = (ofWords? words).map (file :: ·) := by
  have hfile : ofWord? "--file" = some [file] := rfl
  rw [ofWords?, hfile]
  · cases ofWords? words <;> rfl
  · decide
  · exact fun _ _ h => absurd h (by decide)

theorem Argument.contains_file_iff {arguments : List Argument} :
    arguments.contains .file ↔ .file ∈ arguments.map kind := by
  rw [List.contains_iff_mem, List.mem_map]
  constructor
  · exact fun h => ⟨file, h, rfl⟩
  · rintro ⟨a, ha, hkind⟩
    cases a with
    | file => exact ha
    | printAll | maxDepth | contents => cases hkind

theorem Argument.findSome?_contents?_eq_none_iff {arguments : List Argument} :
    arguments.findSome? contents? = none ↔ .contents ∉ arguments.map kind := by
  rw [List.findSome?_eq_none_iff, List.mem_map]
  constructor
  · rintro h ⟨a, ha, hkind⟩
    cases a with
    | contents text => cases h _ ha
    | file | printAll | maxDepth => cases hkind
  · intro h a ha
    cases a with
    | contents text => exact absurd ⟨_, ha, rfl⟩ h
    | file | printAll | maxDepth => rfl

namespace Command

variable {allowed : List Argument.Kind} {options words : List String} {arguments : List Argument}

theorem arguments?_eq_some_iff :
    arguments? allowed words = some arguments ↔
      Argument.ofWords? words = some arguments ∧
        (∀ kind ∈ arguments.map Argument.kind, kind ∈ allowed) ∧
        (arguments.map Argument.kind).Nodup := by
  unfold arguments?
  cases Argument.ofWords? words with
  | none => simp
  | some given =>
    simp only [Option.bind_eq_bind, Option.bind_some, Bool.and_eq_true, List.all_eq_true,
      List.contains_iff_mem, decide_eq_true_eq, Option.some.injEq]
    constructor
    · intro h
      split at h
      · rename_i hkinds
        cases h
        exact ⟨rfl, hkinds⟩
      · cases h
    · rintro ⟨rfl, hkinds⟩
      exact if_pos hkinds

/-- Standard input is read if there is neither a path nor a text. -/
theorem source?_eq_standardInput_iff :
    source? arguments = some .standardInput ↔
      .file ∉ arguments.map Argument.kind ∧ .contents ∉ arguments.map Argument.kind := by
  rw [← Argument.contains_file_iff, ← Argument.findSome?_contents?_eq_none_iff]
  unfold source?
  cases arguments.contains .file <;> cases arguments.findSome? Argument.contents? <;> simp

/-- Then a text may be added, or a path that is announced. -/
theorem source?_append_contents (h : source? arguments = some .standardInput) (text : String) :
    source? (arguments ++ [.contents text]) = some (.text text) ∧
      source? (.file :: (arguments ++ [.contents text])) = some (.file text) := by
  obtain ⟨hfile, hnone⟩ := source?_eq_standardInput_iff.1 h
  have htext : (arguments ++ [Argument.contents text]).findSome? Argument.contents? =
      some text := by
    rw [List.findSome?_append, Argument.findSome?_contents?_eq_none_iff.2 hnone]
    rfl
  have hplain : (arguments ++ [Argument.contents text]).contains .file = false := by
    rw [Bool.eq_false_iff, Ne, Argument.contains_file_iff, List.map_append]
    simpa [Argument.kind] using hfile
  constructor
  · rw [source?, hplain, htext]
  · rw [source?, List.findSome?_cons, htext]
    rfl

/-- Both may follow the options after two dashes. -/
theorem arguments?_append_contents (hdashes : "--" ∉ options)
    (h : arguments? allowed options = some arguments)
    (hinput : source? arguments = some .standardInput) (hcontents : .contents ∈ allowed)
    (hpath : .file ∈ allowed) (text : String) :
    arguments? allowed (options ++ ["--", text]) = some (arguments ++ [.contents text]) ∧
      arguments? allowed ("--file" :: (options ++ ["--", text])) =
        some (.file :: (arguments ++ [.contents text])) := by
  obtain ⟨hwords, hallowed, hnodup⟩ := arguments?_eq_some_iff.1 h
  obtain ⟨hfile, hnone⟩ := source?_eq_standardInput_iff.1 hinput
  have hall : ∀ kind ∈ arguments.map Argument.kind ++ [.contents], kind ∈ allowed := by
    simpa [or_imp, forall_and, hcontents] using hallowed
  have hdistinct : (arguments.map Argument.kind ++ [Argument.Kind.contents]).Nodup := by
    refine List.nodup_append.2 ⟨hnodup, by simp, fun kind hkind other hother => ?_⟩
    rw [List.mem_singleton.1 hother]
    rintro rfl
    exact hnone hkind
  have hnew : .file ∉ arguments.map Argument.kind ++ [.contents] := by
    simpa using hfile
  have hkinds : (arguments ++ [Argument.contents text]).map Argument.kind =
      arguments.map Argument.kind ++ [.contents] := List.map_append
  have hwith : (Argument.file :: (arguments ++ [Argument.contents text])).map Argument.kind =
      .file :: (arguments.map Argument.kind ++ [.contents]) := congrArg (_ :: ·) hkinds
  rw [arguments?_eq_some_iff, arguments?_eq_some_iff, Argument.ofWords?_file,
    Argument.ofWords?_append_dashes hdashes, hwords, hkinds, hwith]
  exact ⟨⟨rfl, hall, hdistinct⟩, rfl, List.forall_mem_cons.2 ⟨hpath, hall⟩,
    List.nodup_cons.2 ⟨hnew, hdistinct⟩⟩

variable {printAll : Bool} {limit : Nat} {source : Source}

theorem parse?_eval_iff :
    parse? ("eval" :: words) = some (.eval source printAll limit) ↔
      ∃ arguments, arguments? [.file, .printAll, .maxDepth, .contents] words = some arguments ∧
        source? arguments = some source ∧ arguments.contains .printAll = printAll ∧
        (arguments.findSome? Argument.limit?).getD defaultLimit = limit := by
  simp only [parse?, Option.bind_eq_bind, Option.bind_eq_some_iff, Option.pure_def,
    Option.some.injEq, eval.injEq]
  constructor
  · rintro ⟨arguments, harguments, _, hsource, rfl, hprint, hlimit⟩
    exact ⟨arguments, harguments, hsource, hprint, hlimit⟩
  · rintro ⟨arguments, harguments, hsource, hprint, hlimit⟩
    exact ⟨arguments, harguments, source, hsource, rfl, hprint, hlimit⟩

theorem parse?_eval_append_contents (hdashes : "--" ∉ options)
    (h : parse? ("eval" :: options) = some (.eval .standardInput printAll limit)) (text : String) :
    parse? ("eval" :: (options ++ ["--", text])) = some (.eval (.text text) printAll limit) ∧
      parse? ("eval" :: "--file" :: (options ++ ["--", text])) =
        some (.eval (.file text) printAll limit) := by
  obtain ⟨arguments, harguments, hinput, hprint, hlimit⟩ := parse?_eval_iff.1 h
  obtain ⟨htext, hpath⟩ :=
    arguments?_append_contents hdashes harguments hinput (by decide) (by decide) text
  obtain ⟨hsource, hfile⟩ := source?_append_contents hinput text
  have hprint' : (arguments ++ [Argument.contents text]).contains .printAll = printAll := by
    rw [← hprint]
    simp
  have hlimit' : (arguments ++ [Argument.contents text]).findSome? Argument.limit? =
      arguments.findSome? Argument.limit? := by
    simp [List.findSome?_append, Argument.limit?]
  constructor
  · exact parse?_eval_iff.2 ⟨_, htext, hsource, hprint', hlimit' ▸ hlimit⟩
  · refine parse?_eval_iff.2 ⟨_, hpath, hfile, ?_, ?_⟩
    · simpa using hprint'
    · rw [List.findSome?_cons]
      exact hlimit' ▸ hlimit

end Command

/-- The program reports the same on a text whether it is the standard input, or follows the options
after two dashes, or is in a file that is named there. -/
theorem runProgram_eq_of_contents {around : Surroundings} {s path : String}
    (hinput : around.standardInput = s.toUTF8) (hfile : around.file path = .ok s.toUTF8) :
    (∀ options printAll limit, "--" ∉ options →
        Command.parse? ("eval" :: options) = some (.eval .standardInput printAll limit) →
        runProgram around ("eval" :: options) = .eval s printAll limit ∧
          runProgram around ("eval" :: (options ++ ["--", s])) = .eval s printAll limit ∧
          runProgram around ("eval" :: "--file" :: (options ++ ["--", path])) =
            .eval s printAll limit) ∧
      runProgram around ["peek"] = .peek s ∧
      runProgram around ["peek", "--", s] = .peek s ∧
      runProgram around ["peek", "--file", "--", path] = .peek s := by
  have hinput : Source.standardInput.Holds around s := hinput
  have htext : (Source.text s).Holds around s := rfl
  have hfile : (Source.file path).Holds around s := hfile
  refine ⟨fun options printAll limit hdashes hparse => ?_, ?_⟩
  · have hs := (Command.parse?_eval_append_contents hdashes hparse s).1
    have hpath := (Command.parse?_eval_append_contents hdashes hparse path).2
    simp only [runProgram, hparse, hs, hpath]
    exact ⟨Command.run_eval_of_holds hinput printAll limit,
      Command.run_eval_of_holds htext printAll limit,
      Command.run_eval_of_holds hfile printAll limit⟩
  · exact ⟨Command.run_peek_of_holds hinput, Command.run_peek_of_holds htext,
      Command.run_peek_of_holds hfile⟩

-- a text that looks like an option is read as a text
example : Command.parse? ["eval", "-a", "--max-depth", "7", "--", "-1"] =
    some (.eval (.text "-1") true 7) := by decide

end ChainCalc
