import ContentAddressed.Proofs.Medium.Flaky

/-!
# Media whose answers only writes change

What a medium answers to reads that do not fail is a function of its state. Reading leaves that
function as it is, a write changes it under its own name at most, and a write that fails does not
change it. Nothing is asked of the bytes that a write is given or replaces.
-/

namespace ContentAddressed

class AnsweringMedium (μ : Type) [Medium μ] where
  /-- What reading a name gives, unless the read fails for a reason of the medium. -/
  answer : μ → String → Except Error StoredBytes
  /-- What is true of the medium from the start. -/
  Steady : μ → Prop
  put_answer {m m' : μ} {name : String} {bs : Bytes} {out : Except Error Unit} :
    Steady m → Medium.put m name bs = (out, m') →
      Steady m' ∧ (∀ other, other ≠ name → answer m' other = answer m other) ∧
        ∀ e, out = .error e → answer m' = answer m
  get_answer {m m' : μ} {name : String} {out : Except Error StoredBytes} :
    Steady m → Medium.get m name = (out, m') →
      Steady m' ∧ answer m' = answer m ∧ (out = answer m name ∨ ∃ e, out = .error e)

def NameTable.answer (t : NameTable) (name : String) : Except Error StoredBytes :=
  match t.find? name with
  | some bs => .ok ⟨bs, false⟩
  | none => .error (.noSuchBlock name)

theorem NameTable.answer_congr {t t' : NameTable} {name : String}
    (h : t'.find? name = t.find? name) : t'.answer name = t.answer name := by
  rw [answer, h, answer]

instance : AnsweringMedium Memory where
  answer m := m.table.answer
  Steady _ := True
  put_answer {m m' name bs out} _ h := by
    obtain ⟨rfl, rfl⟩ := Prod.mk.inj h
    refine ⟨trivial, fun other hne => NameTable.answer_congr ?_, fun e he => by cases he⟩
    exact NameTable.find?_keep_of_ne hne
  get_answer {m m' name out} _ h := by
    cases (m.get_eq name).symm.trans h
    refine ⟨trivial, rfl, Or.inl ?_⟩
    rw [Memory.get, NameTable.answer]
    cases m.table.find? name <;> rfl

instance : AnsweringMedium Faulty where
  answer m := m.table.answer
  Steady _ := True
  put_answer {m m' name bs out} _ h := by
    change m.put name bs = _ at h
    rw [Faulty.put] at h
    split at h
    · cases h
      exact ⟨trivial, fun _ _ => rfl, fun _ _ => rfl⟩
    · cases h
      refine ⟨trivial, fun other hne => NameTable.answer_congr ?_, fun e he => by cases he⟩
      exact NameTable.find?_set_of_ne hne
  get_answer {m m' name out} _ h := by
    cases (m.get_eq name).symm.trans h
    refine ⟨trivial, rfl, ?_⟩
    rw [Faulty.get]
    split
    · exact Or.inr ⟨_, rfl⟩
    · rw [NameTable.answer]
      cases m.table.find? name <;> exact Or.inl rfl

instance : AnsweringMedium Disk where
  answer := Disk.read
  Steady _ := True
  put_answer {d d' name bs out} _ h := by
    change d.put name bs = _ at h
    rcases d.put_cases name bs with ⟨e, hput⟩ | ⟨-, ⟨-, hput⟩ | hput⟩
    · cases hput.symm.trans h
      exact ⟨trivial, fun _ _ => rfl, fun _ _ => rfl⟩
    · cases hput.symm.trans h
      exact ⟨trivial, fun _ _ => rfl, fun _ _ => rfl⟩
    · cases hput.symm.trans h
      exact ⟨trivial, fun other hne => Disk.read_write_of_ne hne, fun e he => by cases he⟩
  get_answer {d d' name out} _ h := by
    obtain ⟨rfl, rfl⟩ := Prod.mk.inj h
    exact ⟨trivial, rfl, Or.inl rfl⟩

namespace Peer

/-- A peer from which no block can be downloaded; it may accept uploads. -/
def Withholds : Peer → Prop
  | unreachable => True
  | scripted answers => ∀ answer ∈ answers, ∀ endpoint name v,
      Remote.acceptDownload endpoint name (deliver answer) ≠ .ok v

theorem Withholds.ask {p p' : Peer} (h : p.Withholds) {request : Http.Request}
    {out : Except PeerError Http.Response} (hask : p.ask request = (out, p')) :
    p'.Withholds ∧ ∀ answer, out = .ok answer →
      ∀ endpoint name v, Remote.acceptDownload endpoint name answer ≠ .ok v := by
  match p with
  | unreachable =>
    cases hask
    exact ⟨trivial, fun _ hout => by cases hout⟩
  | scripted [] =>
    cases hask
    refine ⟨h, ?_⟩
    rintro _ ⟨⟩ endpoint name v
    simp [Remote.acceptDownload]
  | scripted (answer :: rest) =>
    cases hask
    obtain ⟨hfirst, hrest⟩ := List.forall_mem_cons.mp h
    refine ⟨hrest, ?_⟩
    rintro _ ⟨⟩
    exact hfirst

end Peer

/-- A remote whose peer has no blocks to give; one that has may answer one request so and the next
one otherwise. -/
instance : AnsweringMedium Remote where
  answer _ name := .error (.noSuchBlock name)
  Steady r := r.peer.Withholds
  put_answer {r r' name bs out} hr h := by
    obtain ⟨-, rfl⟩ := Prod.mk.inj h
    exact ⟨(hr.ask rfl).1, fun _ _ => rfl, fun _ _ => rfl⟩
  get_answer {r r' name out} hr h := by
    cases hask : r.peer.ask (.download (r.downloadUrl name)) with
    | mk answered peer =>
    obtain ⟨hpeer, hwithheld⟩ := hr.ask hask
    change r.get name = _ at h
    rw [Remote.get, hask] at h
    cases h
    refine ⟨hpeer, rfl, Or.inr ?_⟩
    cases answered with
    | error e => exact ⟨_, rfl⟩
    | ok answer =>
      cases hdownload : Remote.acceptDownload ("GET " ++ r.downloadUrl name) name answer with
      | ok v => exact absurd hdownload (hwithheld answer rfl _ _ v)
      | error e => exact ⟨e, hdownload⟩

namespace Backing

def answer : Backing → String → Except Error StoredBytes
  | memory m | disk m | remote m | faulty m => AnsweringMedium.answer m

/-- What is true of the medium from the start, whichever it is. -/
def Steady : Backing → Prop
  | memory m | disk m | remote m | faulty m => AnsweringMedium.Steady m

instance : AnsweringMedium Backing where
  answer := answer
  Steady := Steady
  put_answer {b b' name bs out} hb h := by
    cases b with
    | memory m =>
      obtain ⟨m', hput, rfl⟩ := exists_of_wrapped memory (Medium.put m name bs) h
      exact AnsweringMedium.put_answer hb hput
    | disk m =>
      obtain ⟨m', hput, rfl⟩ := exists_of_wrapped disk (Medium.put m name bs) h
      exact AnsweringMedium.put_answer hb hput
    | remote m =>
      obtain ⟨m', hput, rfl⟩ := exists_of_wrapped remote (Medium.put m name bs) h
      exact AnsweringMedium.put_answer hb hput
    | faulty m =>
      obtain ⟨m', hput, rfl⟩ := exists_of_wrapped faulty (Medium.put m name bs) h
      exact AnsweringMedium.put_answer hb hput
  get_answer {b b' name out} hb h := by
    cases b with
    | memory m =>
      obtain ⟨m', hget, rfl⟩ := exists_of_wrapped memory (Medium.get m name) h
      exact AnsweringMedium.get_answer hb hget
    | disk m =>
      obtain ⟨m', hget, rfl⟩ := exists_of_wrapped disk (Medium.get m name) h
      exact AnsweringMedium.get_answer hb hget
    | remote m =>
      obtain ⟨m', hget, rfl⟩ := exists_of_wrapped remote (Medium.get m name) h
      exact AnsweringMedium.get_answer hb hget
    | faulty m =>
      obtain ⟨m', hget, rfl⟩ := exists_of_wrapped faulty (Medium.get m name) h
      exact AnsweringMedium.get_answer hb hget

end Backing

namespace Flaky

variable {μ : Type} [Medium μ] [AnsweringMedium μ]

instance : AnsweringMedium (Flaky μ) where
  answer f := AnsweringMedium.answer f.medium
  Steady f := AnsweringMedium.Steady f.medium
  put_answer {f f' name bs out} hf h := by
    obtain ⟨-, ⟨e, -, rfl, hm⟩ | hput⟩ := call_cases h
    · rw [hm]
      exact ⟨hf, fun _ _ => rfl, fun _ _ => rfl⟩
    · exact AnsweringMedium.put_answer hf hput
  get_answer {f f' name out} hf h := by
    obtain ⟨-, ⟨e, -, rfl, hm⟩ | hget⟩ := call_cases h
    · rw [hm]
      exact ⟨hf, rfl, Or.inr ⟨e, rfl⟩⟩
    · exact AnsweringMedium.get_answer hf hget

end Flaky

end ContentAddressed
