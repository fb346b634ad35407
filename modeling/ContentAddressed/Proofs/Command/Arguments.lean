import ContentAddressed.Command.Arguments
import ContentAddressed.Proofs.Link.Frame
import ContentAddressed.Proofs.Result
import ContentAddressed.Proofs.Text.Base64
import ContentAddressed.Proofs.Text.Blank

/-!
# Links on the command line

The text of a link is printed by one run and given as an argument to another one. It has no blanks
and does not look like an option, so it is read as the link that was printed.
-/

namespace ContentAddressed

theorem Base64.plain_encode (bs : Bytes) :
    ∀ c ∈ (common.encode bs).toList, Text.isBlank c = false ∧ c ≠ '-' := by
  have hsymbol : ∀ n < 64, Text.isBlank (common.symbol n) = false ∧ common.symbol n ≠ '-' := by
    decide
  intro c hc
  rw [encode, String.toList_ofList] at hc
  rcases mem_encodeList hc with rfl | ⟨n, hn, rfl⟩
  · decide
  · exact hsymbol n hn

theorem Command.rootLink_encode {l : Link} (hl : l.Valid ∧ l.Canonical) :
    rootLink (some (Base64.common.encode l.frame)) none = .ok l := by
  have htrim := Text.trim_eq fun c hc => (Base64.plain_encode l.frame c hc).1
  have hparse : Link.parse l.frame = .ok l := Link.parse_eq_ok_iff.mpr ⟨hl.1, hl.2, rfl⟩
  rw [rootLink, htrim, Base64.decode?_encode Base64.common_distinguishes]
  simp only [hparse]
  rfl

namespace Grammar

variable {g : Grammar} {values : Values} {name value : String} {kind : OptionKind}
  {rest : List String}

theorem looksLikeOption_encode (bs : Bytes) :
    looksLikeOption (Base64.common.encode bs) = false := by
  rw [looksLikeOption, Bool.and_eq_false_iff, Bool.eq_false_iff]
  refine Or.inl fun hstarts => ?_
  obtain ⟨tail, htail⟩ := String.startsWith_string_iff.mp hstarts
  exact (Base64.plain_encode bs '-' (by simp [← htail])).2 rfl

theorem cutAttached_eq (hname : '=' ∉ name.toList) : cutAttached name = (name, none) := by
  have hcut : ∀ cs : List Char, '=' ∉ cs → Text.cutList? '=' cs = none := by
    intro cs
    induction cs with
    | nil => exact fun _ => rfl
    | cons c cs ih =>
      intro hcs
      rw [List.mem_cons, not_or] at hcs
      rw [Text.cutList?, if_neg (Ne.symm hcs.1), ih hcs.2]
      rfl
  rw [cutAttached, hcut _ hname]

/-- An option is recorded with the value that follows it. -/
theorem readFrom_option (hkind : g.options.lookup name = some kind) (htakes : kind.takesValue)
    (hname : '=' ∉ name.toList) (hsome : name ≠ "") (hcommands : ("--" ++ name) ∉ g.commands)
    (hvalue : looksLikeOption value = false) (haccepts : kind.accepts value)
    (hnew : values.lookup name = none) :
    g.readFrom values none false (("--" ++ name) :: value :: rest) =
      g.readFrom ((name, value) :: values) none false rest := by
  have hlist : ("--" ++ name).toList = '-' :: '-' :: name.toList := by simp
  have hhelp : "--" ++ name ≠ "help" := by
    intro h
    have hhead := congrArg (fun s : String => s.toList.head?) h
    simp [hlist] at hhead
  have hends : "--" ++ name ≠ "--" := by
    simpa using hsome
  have hlong : ("--" ++ name).startsWith "--" := by
    rw [String.startsWith_string_iff, hlist]
    exact ⟨name.toList, by simp⟩
  have hcut : cutAttached (String.ofList (("--" ++ name).toList.drop 2)) = (name, none) := by
    rw [hlist]
    simpa using cutAttached_eq hname
  have hrecord : record values name kind value = some ((name, value) :: values) := by
    simp [record, haccepts, hnew]
  have hwaits : g.longOption values name none = .waits name kind := by
    simp [longOption, hkind, htakes]
  rw [readFrom]
  simp only [hhelp, false_and, if_false, List.contains_eq_mem, hcommands, decide_false,
    Bool.false_eq_true, hends, hlong, if_true, hcut, hwaits]
  rw [readFrom]
  simp only [hvalue, Bool.false_eq_true, if_false, hrecord]

theorem readFrom_command {command : String} (hmem : command ∈ g.commands)
    (hhelp : command ≠ "help") :
    g.readFrom values none false (command :: rest) = .command values command rest := by
  rw [readFrom]
  simp only [hhelp, false_and, if_false, List.contains_eq_mem, hmem, decide_true, if_true]

end Grammar

/-- The arguments that fetch what a link reaches from a directory into a file. -/
def CommandLine.fetchArguments (directory link out : String) : List String :=
  ["--store", directory, "fetch", "--link", link, "--out", out]

/-- Such arguments are read, unless one of the two paths is empty or looks like an option. -/
theorem CommandLine.read_fetchArguments {directory link out : String}
    (hdirectory : directory ≠ "" ∧ Grammar.looksLikeOption directory = false)
    (hlink : Grammar.looksLikeOption link = false)
    (hout : out ≠ "" ∧ Grammar.looksLikeOption out = false) :
    read (fetchArguments directory link out) =
      .invoke ⟨none, some directory, .fetch (some link) none (some out) none⟩ := by
  have hshared : program.read (fetchArguments directory link out) =
      .command [("store", directory)] "fetch" ["--link", link, "--out", out] := by
    have hstore : "--store" = "--" ++ "store" := by decide
    rw [Grammar.read, fetchArguments, hstore, Grammar.readFrom_option rfl rfl (by decide)
      (by decide) (by decide) hdirectory.2 (by simpa [OptionKind.accepts] using hdirectory.1) rfl]
    exact Grammar.readFrom_command (by decide) (by decide)
  have hown : (grammarOf "fetch").read ["--link", link, "--out", out] =
      .finished [("out", out), ("link", link)] := by
    have hlinkName : "--link" = "--" ++ "link" := by decide
    have houtName : "--out" = "--" ++ "out" := by decide
    rw [Grammar.read, hlinkName, houtName, Grammar.readFrom_option rfl rfl (by decide) (by decide)
      (by decide) hlink rfl rfl, Grammar.readFrom_option rfl rfl (by decide) (by decide)
      (by decide) hout.2 (by simpa [OptionKind.accepts] using hout.1) rfl]
    rfl
  rw [read, hshared]
  simp only [hown]
  rfl

end ContentAddressed
