import ContentAddressed.Proofs.Medium.Local

/-!
# A disk answers as a memory

Over a directory in which nothing counts as a block, a disk refuses the names that break its rules
and otherwise answers every sequence of calls as an empty memory does: the first bytes written under
a name are read from then on, and the names written are listed in order.
-/

namespace ContentAddressed

/-! ## Calls of a medium -/

inductive MediumCall where
  | put (name : String) (bs : Bytes)
  | get (name : String)
  | list
  deriving DecidableEq

/-- What a call is answered. How the bytes are held is left out. -/
inductive MediumAnswer where
  | kept
  | bytes (bs : Bytes)
  | names (names : Option (List String))
  | failed (e : Error)
  deriving DecidableEq

def MediumAnswer.ofResult {α : Type} (answer : α → MediumAnswer) : Except Error α → MediumAnswer
  | .ok a => answer a
  | .error e => failed e

namespace Medium

variable {μ : Type} [Medium μ]

/-- What a medium answers to a call, and the medium after it. -/
def ask (m : μ) : MediumCall → MediumAnswer × μ
  | .put name bs => (Medium.put m name bs).map (.ofResult fun _ => .kept) id
  | .get name => (Medium.get m name).map (.ofResult fun v => .bytes v.bytes) id
  | .list => (.ofResult .names (Medium.list m), m)

def after (m : μ) (calls : List MediumCall) : μ := calls.foldl (fun m call => (ask m call).2) m

@[simp] theorem after_cons (m : μ) (call : MediumCall) (calls : List MediumCall) :
    after m (call :: calls) = after (ask m call).2 calls :=
  rfl

def trace (m : μ) : List MediumCall → List (MediumCall × MediumAnswer)
  | [] => []
  | call :: calls => (call, (ask m call).1) :: trace (ask m call).2 calls

end Medium

namespace MediumCall

/-- Whether a name breaks the rules for names of block files. -/
def breaksRules (name : String) : Bool :=
  name == "" || name.toList.head? == some '.' ||
    name.toList.any fun c => c == '/' || c == '\\' || c == '\x00'

/-- Whether a call has no name, or one that keeps the rules. -/
def isRegular : MediumCall → Bool
  | put name _ | get name => !breaksRules name
  | list => true

/-- A call with a name that a directory can take, and something to write. -/
def Fits : MediumCall → Prop
  | put name bs => name.utf8ByteSize ≤ FileName.limit ∧ bs ≠ []
  | get name => name.utf8ByteSize ≤ FileName.limit
  | list => True

instance : DecidablePred Fits
  | put name bs => inferInstanceAs (Decidable (name.utf8ByteSize ≤ FileName.limit ∧ bs ≠ []))
  | get name => inferInstanceAs (Decidable (name.utf8ByteSize ≤ FileName.limit))
  | list => .isTrue trivial

def firstPut? (name : String) : List MediumCall → Option Bytes
  | [] => none
  | put other bs :: calls => if other = name then some bs else firstPut? name calls
  | get _ :: calls | list :: calls => firstPut? name calls

/-- What a call has to be answered after others: a name that breaks the rules is an invalid
argument, other names are written and read with their first bytes, and the list has every name that
was written, once and in order. -/
def Expects (before : List MediumCall) : MediumCall → MediumAnswer → Prop
  | put name _, answer =>
    answer = if breaksRules name then .failed (.invalidArgument (.fileName name)) else .kept
  | get name, answer =>
    answer =
      if breaksRules name then .failed (.invalidArgument (.fileName name))
      else match firstPut? name before with
        | some bs => .bytes bs
        | none => .failed (.noSuchBlock name)
  | list, answer =>
    ∃ names, answer = .names (some names) ∧ names.Pairwise (· < ·) ∧
      ∀ name, name ∈ names ↔ breaksRules name = false ∧ (firstPut? name before).isSome

theorem breaksRules_eq (name : String) : breaksRules name = !Disk.accepts name := by
  rw [Disk.accepts, breaksRules]
  cases hname : name.toList with
  | nil =>
    obtain rfl : name = "" := String.toList_inj.mp hname
    simp
  | cons c cs =>
    have hne : (name == "") = false := by
      rw [beq_eq_false_iff_ne]
      rintro rfl
      cases hname
    rw [hne, List.head?_cons, Bool.not_and, List.not_all_eq_any_not]
    simp [bne, Bool.or_assoc]

theorem firstPut?_filter (name : String) (calls : List MediumCall) :
    firstPut? name (calls.filter isRegular) =
      if breaksRules name then none else firstPut? name calls := by
  induction calls with
  | nil => simp [firstPut?]
  | cons call calls ih =>
    cases call with
    | put other bs =>
      by_cases hother : breaksRules other
      · rw [List.filter_cons_of_neg (by simp [isRegular, hother]), ih, firstPut?]
        by_cases h : other = name
        · subst h
          rw [if_pos hother, if_pos hother]
        · rw [if_neg h]
      · rw [List.filter_cons_of_pos (by simp [isRegular, hother]), firstPut?, firstPut?, ih]
        by_cases h : other = name
        · subst h
          rw [if_pos rfl, if_neg hother, if_pos rfl]
        · rw [if_neg h, if_neg h]
    | get other =>
      rw [List.filter_cons, firstPut?]
      split
      · exact ih
      · exact ih
    | list => exact ih

end MediumCall

/-! ## What memory answers -/

theorem NameTable.mem_map_fst_iff {t : NameTable} {name : String} :
    name ∈ t.map Prod.fst ↔ t.contains name := by
  rw [contains, find?, List.lookup_isSome_iff, List.mem_map]
  exact exists_congr fun e => and_congr_right fun _ => by rw [beq_iff_eq, eq_comm]

theorem mem_sortNames {names : List String} {name : String} :
    name ∈ sortNames names ↔ name ∈ names :=
  List.mem_mergeSort

theorem pairwise_sortNames {names : List String} (h : names.Nodup) :
    (sortNames names).Pairwise (· < ·) := by
  have hle : (sortNames names).Pairwise fun a b => decide (a ≤ b) = true :=
    List.pairwise_mergeSort (by simpa using fun a b c => String.le_trans)
      (by simpa using String.le_total) names
  have hnodup : (sortNames names).Nodup := (List.mergeSort_perm names _).nodup_iff.mpr h
  exact (hle.and hnodup).imp fun hab => Std.lt_of_le_of_ne (of_decide_eq_true hab.1) hab.2

namespace Memory

variable {m : Memory} {name : String}

theorem ask_get (m : Memory) (name : String) :
    Medium.ask m (.get name) =
      (match m.table.find? name with
        | some bs => .bytes bs
        | none => .failed (.noSuchBlock name), m) := by
  change Prod.map _ _ (m.get name) = _
  rw [get]
  cases m.table.find? name <;> rfl

/-- Every name has its first bytes, those it had from the start or those of its first write. -/
theorem find?_after (m : Memory) (calls : List MediumCall) (name : String) :
    (Medium.after m calls).table.find? name =
      (m.table.find? name).or (MediumCall.firstPut? name calls) := by
  induction calls generalizing m with
  | nil => simp [Medium.after, MediumCall.firstPut?]
  | cons call calls ih =>
    rw [Medium.after_cons, ih]
    cases call with
    | put other bs =>
      change ((m.table.keep other bs).find? name).or _ = _
      by_cases h : other = name
      · subst h
        rw [NameTable.find?_keep_self, MediumCall.firstPut?, if_pos rfl]
        cases m.table.find? other <;> rfl
      · rw [NameTable.find?_keep_of_ne (Ne.symm h), MediumCall.firstPut?, if_neg h]
    | get other => rw [ask_get, MediumCall.firstPut?]
    | list => rfl

theorem nodup_after (hm : (m.table.map Prod.fst).Nodup) (calls : List MediumCall) :
    ((Medium.after m calls).table.map Prod.fst).Nodup := by
  induction calls generalizing m with
  | nil => exact hm
  | cons call calls ih =>
    refine ih (m := (Medium.ask m call).2) ?_
    cases call with
    | put name bs =>
      change ((m.table.keep name bs).map Prod.fst).Nodup
      rw [NameTable.keep]
      split
      · exact hm
      · next hnew => exact List.nodup_cons.mpr ⟨mt NameTable.mem_map_fst_iff.mp hnew, hm⟩
    | get name =>
      rw [ask_get]
      exact hm
    | list => exact hm

/-- What an empty memory answers after calls with names that keep the rules is what is expected. -/
theorem expects_ask (before : List MediumCall) {call : MediumCall} (hcall : call.isRegular) :
    call.Expects before
      (Medium.ask (Medium.after ({} : Memory) (before.filter MediumCall.isRegular)) call).1 := by
  have hfind (name : String) :
      (Medium.after ({} : Memory) (before.filter MediumCall.isRegular)).table.find? name =
        if MediumCall.breaksRules name then none else MediumCall.firstPut? name before := by
    rw [find?_after, MediumCall.firstPut?_filter]
    rfl
  cases call with
  | put name bs =>
    have hname : MediumCall.breaksRules name = false := by
      simpa [MediumCall.isRegular] using hcall
    simp only [MediumCall.Expects, hname]
    rfl
  | get name =>
    have hname : MediumCall.breaksRules name = false := by
      simpa [MediumCall.isRegular] using hcall
    have hread := hfind name
    rw [hname] at hread
    rw [ask_get, MediumCall.Expects, hname, hread]
    rfl
  | list =>
    refine ⟨_, rfl, pairwise_sortNames (nodup_after (m := {}) List.nodup_nil _), fun name => ?_⟩
    rw [NameTable.names, mem_sortNames, NameTable.mem_map_fst_iff, NameTable.contains, hfind]
    cases MediumCall.breaksRules name <;> simp

end Memory

/-! ## Directories -/

namespace Folder

/-- A directory where nothing counts as a block: every name is hidden or that of an empty file. -/
def Vacant (f : Folder) : Prop :=
  ∀ name e, (.text name, e) ∈ f → name.toList.head? = some '.' ∨ e = .file []

theorem set_append {f rest : Folder} (name : FileName) (e : Entry) :
    (f ++ rest).set name e = f.set name e ++ rest.erase name := by
  simp [set, erase, List.filter_append]

theorem Vacant.erase {f : Folder} (h : f.Vacant) (name : FileName) : (f.erase name).Vacant :=
  fun other e he => h other e (List.mem_of_mem_filter he)

end Folder

namespace Disk

variable {d : Disk} {m : Memory} {name : String} {bs : Bytes}

theorem ask_put (d : Disk) (name : String) (bs : Bytes) :
    Medium.ask d (.put name bs) =
      (.ofResult (fun _ => .kept) (d.put name bs).1, (d.put name bs).2) :=
  rfl

theorem ask_get (d : Disk) (name : String) :
    Medium.ask d (.get name) = (.ofResult (fun v => .bytes v.bytes) (d.read name), d) :=
  rfl

theorem head?_of_accepts (h : accepts name) : name.toList.head? ≠ some '.' := by
  rw [accepts] at h
  intro hhead
  cases hname : name.toList with
  | nil => simp [hname] at hhead
  | cons c cs => simp_all

theorem startsWith_dot_iff : name.startsWith "." ↔ name.toList.head? = some '.' := by
  rw [String.startsWith_string_iff]
  cases name.toList <;> simp [eq_comm]

theorem blockName?_of_accepts (h : accepts name) (hbs : bs ≠ []) :
    blockName? (.text name, .file bs) = some name := by
  simp [blockName?, mt startsWith_dot_iff.mp (head?_of_accepts h), hbs]

theorem find?_of_vacant {f : Folder} (h : f.Vacant) (hname : accepts name) :
    f.find? (.text name) = none ∨ f.find? (.text name) = some (.file []) := by
  cases hfind : f.find? (.text name) with
  | none => exact Or.inl rfl
  | some e =>
    exact Or.inr (congrArg some
      ((h name e (Folder.mem_of_find? hfind)).resolve_left (head?_of_accepts hname)))

theorem blockName?_of_vacant {f : Folder} (h : f.Vacant) {e : FileName × Entry} (he : e ∈ f) :
    blockName? e = none := by
  match e, he with
  | (.text name, .file bs), he =>
    rcases h name _ he with hhidden | hempty
    · simp [blockName?, startsWith_dot_iff.mpr hhidden]
    · cases hempty
      simp [blockName?]
  | (.text _, .folder), _ | (.raw _, _), _ => rfl

theorem read_of_vacant (hname : Writable name)
    (h : d.folder.find? (.text name) = none ∨ d.folder.find? (.text name) = some (.file [])) :
    d.read name = .error (.noSuchBlock name) := by
  rcases h with h | h <;>
    simp [read, hname.1, hname.2, h, bind, Except.bind, throw, throwThe, MonadExceptOf.throw]

/-- A disk that holds what a memory does, beside entries that do not count. -/
structure Mirrors (d : Disk) (m : Memory) : Prop where
  folder : ∃ rest, d.folder = m.table.toFolder ++ rest ∧ rest.Vacant
  accepted : ∀ e ∈ m.table, accepts e.1
  full : ∀ e ∈ m.table, e.2 ≠ []

theorem mirrors_empty (h : d.folder.Vacant) : d.Mirrors {} :=
  ⟨⟨d.folder, rfl, h⟩, fun _ he => absurd he List.not_mem_nil,
    fun _ he => absurd he List.not_mem_nil⟩

namespace Mirrors

/-- A name that memory has is a file with its bytes; another one is absent or an empty file. -/
theorem find?_cases (h : d.Mirrors m) (hname : accepts name) :
    (∃ bs, m.table.find? name = some bs ∧ bs ≠ [] ∧
      d.folder.find? (.text name) = some (.file bs)) ∨
    m.table.find? name = none ∧
      (d.folder.find? (.text name) = none ∨ d.folder.find? (.text name) = some (.file [])) := by
  obtain ⟨rest, hfolder, hrest⟩ := h.folder
  have hfind : d.folder.find? (.text name) =
      ((m.table.find? name).map .file).or (rest.find? (.text name)) := by
    rw [hfolder, ← NameTable.find?_toFolder]
    exact List.lookup_append
  cases hm : m.table.find? name with
  | none =>
    rw [hfind, hm]
    exact Or.inr ⟨rfl, find?_of_vacant hrest hname⟩
  | some bs =>
    rw [hfind, hm]
    exact Or.inl ⟨bs, rfl, h.full _ (mem_of_lookup hm), rfl⟩

theorem holds_eq (h : d.Mirrors m) (hname : accepts name) :
    d.folder.holds (.text name) = m.table.contains name := by
  rw [Folder.holds, NameTable.contains]
  rcases h.find?_cases hname with ⟨bs, hm, hbs, hd⟩ | ⟨hm, hd | hd⟩
  · simp [hm, hd, Entry.isEmpty, hbs]
  · simp [hm, hd]
  · simp [hm, hd, Entry.isEmpty]

theorem write (h : d.Mirrors m) (hname : accepts name) (hnew : m.table.contains name = false)
    (hbs : bs ≠ []) : (d.write name bs).Mirrors ⟨(name, bs) :: m.table⟩ := by
  obtain ⟨rest, hfolder, hrest⟩ := h.folder
  refine ⟨⟨rest.erase (.text name), ?_, hrest.erase _⟩, ?_, ?_⟩
  · rw [NameTable.toFolder_cons hnew, ← Folder.set_append, ← hfolder]
    rfl
  · exact List.forall_mem_cons.mpr ⟨hname, h.accepted⟩
  · exact List.forall_mem_cons.mpr ⟨hbs, h.full⟩

theorem names_eq (h : d.Mirrors m) : d.names = m.table.names := by
  obtain ⟨rest, hfolder, hrest⟩ := h.folder
  have hkept : m.table.toFolder.filterMap blockName? = m.table.map Prod.fst := by
    rw [NameTable.toFolder, List.filterMap_map, ← List.filterMap_eq_map]
    exact List.filterMap_congr fun e he => blockName?_of_accepts (h.accepted e he) (h.full e he)
  rw [names, NameTable.names, hfolder, List.filterMap_append, hkept,
    List.filterMap_eq_nil_iff.mpr fun e he => blockName?_of_vacant hrest he, List.append_nil]

/-- A call with a name that keeps the rules is answered as memory answers it, and keeps disk and
memory alike. -/
theorem ask (h : d.Mirrors m) {call : MediumCall} (hcall : call.isRegular) (hfits : call.Fits)
    (hpath : call = .list → d.path ≠ "") :
    (Medium.ask d call).1 = (Medium.ask m call).1 ∧
      (Medium.ask d call).2.Mirrors (Medium.ask m call).2 := by
  cases call with
  | put name bs =>
    have hname : accepts name := by
      simpa [MediumCall.isRegular, MediumCall.breaksRules_eq] using hcall
    have hwritable : Writable name := writable_of_accepts hname hfits.1
    change _ = MediumAnswer.kept ∧ Mirrors _ ⟨m.table.keep name bs⟩
    rw [ask_put, put, hwritable.1, NameTable.keep, h.holds_eq hname]
    by_cases hold : m.table.contains name
    · simpa [hwritable.2, hold] using ⟨rfl, h⟩
    · simpa [hwritable.2, hold] using ⟨rfl, h.write hname (by simpa using hold) hfits.2⟩
  | get name =>
    have hname : accepts name := by
      simpa [MediumCall.isRegular, MediumCall.breaksRules_eq] using hcall
    have hwritable : Writable name := writable_of_accepts hname hfits
    rw [Memory.ask_get, ask_get]
    refine ⟨?_, h⟩
    rcases h.find?_cases hname with ⟨bs, hm, hbs, hd⟩ | ⟨hm, hd | hd⟩
    · rw [read_of_file hwritable hbs hd, hm]
      rfl
    · rw [read_of_vacant hwritable (Or.inl hd), hm]
      rfl
    · rw [read_of_vacant hwritable (Or.inr hd), hm]
      rfl
  | list =>
    have hlist : d.list = .ok (some m.table.names) := by
      simp [Disk.list, hpath rfl, h.names_eq]
    exact ⟨congrArg (MediumAnswer.ofResult .names) hlist, h⟩

end Mirrors

theorem ask_irregular {call : MediumCall} (hcall : ¬ call.isRegular) (d : Disk)
    (before : List MediumCall) :
    call.Expects before (Medium.ask d call).1 ∧ (Medium.ask d call).2 = d := by
  have hcheck {name : String} (hname : MediumCall.breaksRules name) :
      checkName name = .error (.invalidArgument (.fileName name)) := by
    simpa [checkName, MediumCall.breaksRules_eq] using hname
  cases call with
  | put name bs =>
    have hname : MediumCall.breaksRules name := by simpa [MediumCall.isRegular] using hcall
    rw [MediumCall.Expects, if_pos hname, ask_put, put, hcheck hname]
    exact ⟨rfl, rfl⟩
  | get name =>
    have hname : MediumCall.breaksRules name := by simpa [MediumCall.isRegular] using hcall
    rw [MediumCall.Expects, if_pos hname, ask_get, read, hcheck hname]
    exact ⟨rfl, rfl⟩
  | list => exact absurd rfl hcall

theorem path_ask (d : Disk) (call : MediumCall) : (Medium.ask d call).2.path = d.path := by
  cases call with
  | put name bs =>
    rw [ask_put]
    rcases d.put_cases name bs with ⟨e, hput⟩ | ⟨-, ⟨-, hput⟩ | hput⟩
    · rw [hput]
    · rw [hput]
    · rw [hput, Disk.write]
  | get name | list => rfl

theorem path_after (d : Disk) (calls : List MediumCall) : (Medium.after d calls).path = d.path := by
  induction calls generalizing d with
  | nil => rfl
  | cons call calls ih => exact (ih (Medium.ask d call).2).trans (d.path_ask call)

/-- Calls in order are answered as memory answers those with names that keep the rules. -/
theorem Mirrors.trace (h : d.Mirrors m) {calls : List MediumCall}
    (hfits : ∀ call ∈ calls, call.Fits) (hpath : .list ∈ calls → d.path ≠ "") :
    (Medium.trace d calls).filter (fun e => e.1.isRegular) =
        Medium.trace m (calls.filter MediumCall.isRegular) ∧
      (Medium.after d calls).Mirrors (Medium.after m (calls.filter MediumCall.isRegular)) := by
  induction calls generalizing d m with
  | nil => exact ⟨rfl, h⟩
  | cons call calls ih =>
    obtain ⟨hcall, hcalls⟩ := List.forall_mem_cons.mp hfits
    have hpath' : .list ∈ calls → (Medium.ask d call).2.path ≠ "" := by
      rw [path_ask]
      exact fun hlist => hpath (List.mem_cons_of_mem _ hlist)
    rw [Medium.trace, Medium.after_cons]
    by_cases hregular : call.isRegular
    · obtain ⟨hanswer, hstep⟩ :=
        h.ask hregular hcall fun hlist => hpath (hlist ▸ List.mem_cons_self)
      obtain ⟨htrace, hafter⟩ := ih hstep hcalls hpath'
      rw [List.filter_cons_of_pos (by exact hregular), List.filter_cons_of_pos hregular,
        Medium.trace, Medium.after_cons, hanswer, htrace]
      exact ⟨rfl, hafter⟩
    · have hsame := (ask_irregular hregular d []).2
      rw [List.filter_cons_of_neg (by exact hregular), List.filter_cons_of_neg hregular, hsame]
      exact ih h hcalls fun hlist => hpath (List.mem_cons_of_mem _ hlist)

/-- Over a directory where nothing counts as a block, a disk refuses the names that break its rules
and answers all other calls, in order, as an empty memory does: with the first bytes written under a
name, and with the names written in order. -/
theorem answers_as_memory (hd : d.folder.Vacant) {calls : List MediumCall}
    (hfits : ∀ call ∈ calls, call.Fits) (hpath : .list ∈ calls → d.path ≠ "") :
    (Medium.trace d calls).filter (fun e => e.1.isRegular) =
        Medium.trace ({} : Memory) (calls.filter MediumCall.isRegular) ∧
      ∀ before call rest, calls = before ++ call :: rest →
        call.Expects before (Medium.ask (Medium.after d before) call).1 ∧
          (¬ call.isRegular →
            (Medium.ask (Medium.after d before) call).2 = Medium.after d before) := by
  refine ⟨((mirrors_empty hd).trace hfits hpath).1, fun before call rest hcalls => ?_⟩
  subst hcalls
  by_cases hregular : call.isRegular
  · refine ⟨?_, fun h => absurd hregular h⟩
    have hbefore : ∀ c ∈ before, c.Fits := fun c hc => hfits c (by simp [hc])
    have hmirrors := ((mirrors_empty hd).trace hbefore fun hlist => hpath (by simp [hlist])).2
    rw [(hmirrors.ask hregular (hfits call (by simp)) fun hlist => ?_).1]
    · exact Memory.expects_ask before hregular
    · rw [path_after]
      exact hpath (by simp [hlist])
  · have hrefused := ask_irregular hregular (Medium.after d before) before
    exact ⟨hrefused.1, fun _ => hrefused.2⟩

/-- A hidden file, an empty one, and a name that leads out of the directory. -/
theorem answers_as_memory_lock :
    let d : Disk := ⟨"blocks", 2, [(.text ".lock", .file [7]), (.text "a", .file [])]⟩
    let calls : List MediumCall :=
      [.put "a" [1, 2, 3], .put "../b" [4], .put "a" [5], .get "a", .list]
    d.folder.Vacant ∧ (∀ call ∈ calls, call.Fits) ∧ d.path ≠ "" ∧
      (Medium.trace d calls).filter (fun e => e.1.isRegular) =
        [(.put "a" [1, 2, 3], .kept), (.put "a" [5], .kept), (.get "a", .bytes [1, 2, 3]),
          (.list, .names (some ["a"]))] ∧
      (Medium.ask (Medium.after d [.put "a" [1, 2, 3]]) (.put "../b" [4])).1 =
        .failed (.invalidArgument (.fileName "../b")) := by
  intro d calls
  have hvacant : d.folder.Vacant := by
    intro name e he
    obtain ⟨rfl, -⟩ | ⟨-, rfl⟩ : name = ".lock" ∧ e = .file [7] ∨ name = "a" ∧ e = .file [] := by
      simpa [d] using he
    · exact Or.inl (by decide)
    · exact Or.inr rfl
  have hfits : ∀ call ∈ calls, call.Fits := by decide
  have hpath : d.path ≠ "" := by decide
  have hmemory := answers_as_memory hvacant hfits fun _ => hpath
  have hnames : NameTable.names [("a", [1, 2, 3])] = ["a"] := List.mergeSort_singleton _
  refine ⟨hvacant, hfits, hpath, hmemory.1.trans ?_, ?_⟩
  · rw [← hnames]
    rfl
  · exact (hmemory.2 [.put "a" [1, 2, 3]] (.put "../b" [4]) _ rfl).1

end Disk

end ContentAddressed
