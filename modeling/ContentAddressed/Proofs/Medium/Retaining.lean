import ContentAddressed.Proofs.Medium.Flaky
import ContentAddressed.Proofs.Result

/-!
# Media that never miss what they accepted

A name that was accepted with some bytes is never missed by a later read, whatever is written in
between and whichever calls fail. Nothing is asked of the bytes: a medium may keep the first ones,
the last ones, or find a directory in their place.
-/

namespace ContentAddressed

/-- Whether a failure is that of a call, and not the answer that something is missing. -/
def Error.IsOfCall : Error → Prop
  | noSuchBlock _ | cacheInconsistency _ => False
  | _ => True

/-- What a call leaves of a medium: no name is lost, and no other failure becomes possible. -/
structure Retains (has has' : String → Prop) (raises raises' : Error → Prop) : Prop where
  has : ∀ name, has name → has' name
  raises : ∀ e, raises' e → raises e

theorem Retains.refl (has : String → Prop) (raises : Error → Prop) :
    Retains has has raises raises :=
  ⟨fun _ => id, fun _ => id⟩

class RetainingMedium (μ : Type) [Medium μ] where
  /-- The names that are there. -/
  Has : μ → String → Prop
  /-- The failures that calls may raise, now or later, for whatever reason. -/
  Raises : μ → Error → Prop
  put_retains {m m' : μ} {name : String} {bs : Bytes} {out : Except Error Unit} :
    Medium.put m name bs = (out, m') → Retains (Has m) (Has m') (Raises m) (Raises m') ∧
      (out = .ok () → bs ≠ [] → Has m' name) ∧ ∀ e, out = .error e → Raises m e
  get_retains {m m' : μ} {name : String} {out : Except Error StoredBytes} :
    Medium.get m name = (out, m') → Retains (Has m) (Has m') (Raises m) (Raises m') ∧
      ∀ e, out = .error e → Raises m e ∨ e = .noSuchBlock name ∧ ¬ Has m name

theorem PutEffect.isSome {before after : String → Option Bytes} {name other : String} {bs : Bytes}
    {out : Except Error Unit} (h : PutEffect before after name bs out)
    (hother : (before other).isSome) : (after other).isSome := by
  by_cases hname : other = name
  · subst hname
    cases out with
    | error e => rwa [h.refused e rfl]
    | ok _ =>
      rcases h.accepted rfl with hnew | ⟨-, hold⟩
      · rw [hnew]
        rfl
      · rwa [hold]
  · rwa [h.others other hname]

theorem PutEffect.isSome_of_ok {before after : String → Option Bytes} {name : String} {bs : Bytes}
    (h : PutEffect before after name bs (.ok ())) : (after name).isSome := by
  rcases h.accepted rfl with hnew | ⟨hsome, hold⟩
  · rw [hnew]
    rfl
  · rwa [hold]

instance : RetainingMedium Memory where
  Has m name := (m.table.find? name).isSome
  Raises _ e := e.IsOfCall
  put_retains {m m' name bs out} h := by
    obtain ⟨rfl, rfl⟩ := Prod.mk.inj h
    have heffect := m.put_effect name bs
    exact ⟨⟨fun _ => heffect.isSome, fun _ => id⟩, fun _ _ => heffect.isSome_of_ok,
      fun e he => by cases he⟩
  get_retains {m m' name out} h := by
    cases (m.get_eq name).symm.trans h
    refine ⟨Retains.refl _ _, fun e he => Or.inr ?_⟩
    rw [Memory.get] at he
    split at he
    · cases he
    · next hfind =>
      cases he
      simp [hfind]

instance : RetainingMedium Faulty where
  Has m name := (m.table.find? name).isSome
  Raises _ e := e.IsOfCall
  put_retains {m m' name bs out} h := by
    have heffect := m.put_effect name bs
    obtain ⟨hout, rfl⟩ := Prod.mk.inj h
    refine ⟨⟨fun _ => heffect.isSome, fun _ => id⟩, fun hok _ => ?_, fun e he => ?_⟩
    · rw [show (m.put name bs).1 = .ok () from hout.trans hok] at heffect
      exact heffect.isSome_of_ok
    · have herror : (m.put name bs).1 = .error e := hout.trans he
      rw [Faulty.put] at herror
      split at herror
      · cases herror
        trivial
      · cases herror
  get_retains {m m' name out} h := by
    cases (m.get_eq name).symm.trans h
    refine ⟨Retains.refl _ _, fun e he => ?_⟩
    rw [Faulty.get] at he
    split at he
    · cases he
      exact Or.inl trivial
    · split at he
      · cases he
      · next hfind =>
        cases he
        exact Or.inr ⟨rfl, by simp [hfind]⟩

namespace Disk

variable {d : Disk} {name other : String} {bs : Bytes} {e : Error}

/-- No write makes an entry that is not empty go away. -/
theorem holds_put (h : d.folder.holds (.text other)) :
    (d.put name bs).2.folder.holds (.text other) := by
  rw [put]
  split
  · exact h
  · split
    · exact h
    · split
      · exact h
      · next hnew =>
        have hne : other ≠ name := by
          rintro rfl
          exact hnew h
        rw [Folder.holds_set_of_ne (by simpa using hne)]
        exact h

theorem isOfCall_of_checkName (h : checkName name = .error e) : e.IsOfCall := by
  rw [checkName] at h
  split at h
  · cases h
  · cases h
    trivial

theorem isOfCall_of_put {d' : Disk} (h : d.put name bs = (.error e, d')) : e.IsOfCall := by
  rw [put] at h
  split at h
  · next hcheck =>
    cases h
    exact isOfCall_of_checkName hcheck
  · split at h
    · cases h
      trivial
    · split at h <;> cases h

/-- A name that is read in vain is refused, or has no entry that counts. -/
theorem read_error_cases (h : d.read name = .error e) :
    e.IsOfCall ∨ e = .noSuchBlock name ∧ ¬ d.folder.holds (.text name) := by
  cases hcheck : checkName name with
  | error e' =>
    simp only [read, hcheck, bind, Except.bind] at h
    cases h
    exact Or.inl (isOfCall_of_checkName hcheck)
  | ok _ =>
    simp only [read, hcheck, bind, Except.bind, throw, throwThe, MonadExceptOf.throw] at h
    split at h
    · cases h
      exact Or.inl trivial
    · split at h
      · next hfind =>
        cases h
        exact Or.inr ⟨rfl, by simp [Folder.holds, hfind]⟩
      · cases h
        exact Or.inl trivial
      · next content hfind =>
        split at h
        · next hempty =>
          cases h
          exact Or.inr ⟨rfl, by simpa [Folder.holds, hfind, Entry.isEmpty] using hempty⟩
        · cases h

instance : RetainingMedium Disk where
  Has d name := d.folder.holds (.text name)
  Raises _ e := e.IsOfCall
  put_retains {d d' name bs out} h := by
    change d.put name bs = _ at h
    refine ⟨⟨fun other hother => ?_, fun _ => id⟩, fun hok hbs => ?_, fun e he => ?_⟩
    · have hput : (d.put name bs).2.folder.holds (.text other) := holds_put hother
      rwa [h] at hput
    · rcases d.put_cases name bs with ⟨e, hput⟩ | ⟨-, ⟨hholds, hput⟩ | hput⟩
      · cases hok ▸ hput.symm.trans h
      · cases hput.symm.trans h
        exact hholds
      · cases hput.symm.trans h
        simp [write, Folder.holds, Folder.find?_set_self, Entry.isEmpty, hbs]
    · exact isOfCall_of_put (he ▸ h)
  get_retains {d d' name out} h := by
    obtain ⟨hread, rfl⟩ := Prod.mk.inj h
    exact ⟨Retains.refl _ _, fun e he => read_error_cases (hread.trans he)⟩

end Disk

namespace Remote

variable {r r' : Remote} {name missing : String} {bs : Bytes}

theorem put_ne_cacheInconsistency : r.put name bs ≠ (.error (.cacheInconsistency missing), r') := by
  intro h
  obtain ⟨cause, -, hcause⟩ := Result.exists_of_mapError_eq_error (congrArg Prod.fst h)
  cases hcause

theorem get_ne_cacheInconsistency : r.get name ≠ (.error (.cacheInconsistency missing), r') := by
  intro h
  have hout := congrArg Prod.fst h
  simp only [get] at hout
  cases hask : (r.peer.ask (.download (r.downloadUrl name))).1 with
  | error cause =>
    rw [hask] at hout
    cases hout
  | ok answer =>
    rw [hask] at hout
    change acceptDownload _ name answer = _ at hout
    rw [acceptDownload] at hout
    split at hout
    · cases hout
    · split at hout
      · cases hout
      · dsimp only at hout
        split at hout <;> cases hout

/-- Nothing is known of what a remote medium has; it may say of every name that it is missing. -/
instance : RetainingMedium Remote where
  Has _ _ := True
  Raises _ e := ∀ missing, e ≠ .cacheInconsistency missing
  put_retains {r r' name bs out} h := by
    refine ⟨⟨fun _ => id, fun _ => id⟩, fun _ _ => trivial, ?_⟩
    rintro e rfl missing rfl
    exact put_ne_cacheInconsistency h
  get_retains {r r' name out} h := by
    refine ⟨⟨fun _ => id, fun _ => id⟩, ?_⟩
    rintro e rfl
    refine Or.inl ?_
    rintro missing rfl
    exact get_ne_cacheInconsistency h

end Remote

namespace Backing

def Has : Backing → String → Prop
  | memory m => RetainingMedium.Has m
  | disk m => RetainingMedium.Has m
  | remote m => RetainingMedium.Has m
  | faulty m => RetainingMedium.Has m

def Raises : Backing → Error → Prop
  | memory m => RetainingMedium.Raises m
  | disk m => RetainingMedium.Raises m
  | remote m => RetainingMedium.Raises m
  | faulty m => RetainingMedium.Raises m

instance : RetainingMedium Backing where
  Has := Has
  Raises := Raises
  put_retains {b b' name bs out} h := by
    cases b with
    | memory m =>
      obtain ⟨m', hput, rfl⟩ := exists_of_wrapped memory (Medium.put m name bs) h
      exact RetainingMedium.put_retains hput
    | disk m =>
      obtain ⟨m', hput, rfl⟩ := exists_of_wrapped disk (Medium.put m name bs) h
      exact RetainingMedium.put_retains hput
    | remote m =>
      obtain ⟨m', hput, rfl⟩ := exists_of_wrapped remote (Medium.put m name bs) h
      exact RetainingMedium.put_retains hput
    | faulty m =>
      obtain ⟨m', hput, rfl⟩ := exists_of_wrapped faulty (Medium.put m name bs) h
      exact RetainingMedium.put_retains hput
  get_retains {b b' name out} h := by
    cases b with
    | memory m =>
      obtain ⟨m', hget, rfl⟩ := exists_of_wrapped memory (Medium.get m name) h
      exact RetainingMedium.get_retains hget
    | disk m =>
      obtain ⟨m', hget, rfl⟩ := exists_of_wrapped disk (Medium.get m name) h
      exact RetainingMedium.get_retains hget
    | remote m =>
      obtain ⟨m', hget, rfl⟩ := exists_of_wrapped remote (Medium.get m name) h
      exact RetainingMedium.get_retains hget
    | faulty m =>
      obtain ⟨m', hget, rfl⟩ := exists_of_wrapped faulty (Medium.get m name) h
      exact RetainingMedium.get_retains hget

end Backing

namespace Flaky

variable {μ : Type} [Medium μ] [RetainingMedium μ]

instance : RetainingMedium (Flaky μ) where
  Has f := RetainingMedium.Has f.medium
  Raises f e := RetainingMedium.Raises f.medium e ∨ some e ∈ f.verdicts
  put_retains {f f' name bs out} h := by
    obtain ⟨hrest, ⟨e, he, rfl, hm⟩ | hput⟩ := call_cases h
    · rw [hm]
      refine ⟨⟨fun _ => id, fun e' => Or.imp_right (hrest ·)⟩, fun hok => (by cases hok), ?_⟩
      rintro e' ⟨⟩
      exact Or.inr he
    · obtain ⟨hretains, haccepted, hraised⟩ := RetainingMedium.put_retains hput
      exact ⟨⟨hretains.has, fun e => Or.imp (hretains.raises e) (hrest ·)⟩, haccepted,
        fun e he => Or.inl (hraised e he)⟩
  get_retains {f f' name out} h := by
    obtain ⟨hrest, ⟨e, he, rfl, hm⟩ | hget⟩ := call_cases h
    · rw [hm]
      refine ⟨⟨fun _ => id, fun e' => Or.imp_right (hrest ·)⟩, ?_⟩
      rintro e' ⟨⟩
      exact Or.inl (Or.inr he)
    · obtain ⟨hretains, hraised⟩ := RetainingMedium.get_retains hget
      refine ⟨⟨hretains.has, fun e => Or.imp (hretains.raises e) (hrest ·)⟩, fun e he => ?_⟩
      exact (hraised e he).imp_left Or.inl

end Flaky

end ContentAddressed
