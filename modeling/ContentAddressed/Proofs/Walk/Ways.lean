import ContentAddressed.Walk.Basic
import Mathlib.Data.Nat.Find
import Mathlib.Order.Bounds.Defs

/-!
# Ways and distances

What a store answers makes a graph of the links: a way from the root goes on through every block
that opens. The distance of a name is the length of the shortest way to it.
-/

namespace ContentAddressed

theorem Link.admits_iff {l : Link} {bs : Bytes} :
    l.admits bs ↔ ∀ fp, Fingerprint.decode l.target = .ok fp → fp.isOf bs := by
  rw [admits, fingerprint?]
  cases Fingerprint.decode l.target with
  | error e => simp [Except.toOption]
  | ok fp => simp [Except.toOption]

namespace Block

theorem links_eq_of_same {b c : Block} (h : b.same c) : b.links = c.links := by
  rw [same, Bool.and_eq_true] at h
  exact eq_of_beq h.1

end Block

/-- Two findings that do not differ: the same block as far as links and content go, or the same
closed bytes. -/
def Found.Same : Found → Found → Prop
  | block b, block c => b.same c
  | locked v, locked u => v = u
  | _, _ => False

theorem Found.Same.links_eq {f f' : Found} (h : f.Same f') : f.links = f'.links := by
  cases f with
  | block b =>
    cases f' with
    | block c => exact Block.links_eq_of_same h
    | locked u => exact h.elim
  | locked v =>
    cases f' with
    | block c => exact h.elim
    | locked u => rfl

/-- What a store answers to every name, the keys at hand, and the link where walks start. -/
structure LinkGraph where
  answer : String → Except Error StoredBytes
  keys : Option Keychain
  root : Link

namespace LinkGraph

/-- The block that the bytes under the target of a link open to. -/
def opens? (g : LinkGraph) (l : Link) : Option Block :=
  match g.answer l.target with
  | .ok v => l.openBytes? g.keys v.bytes
  | .error _ => none

/-- The ways to a link, by the number of links that they follow before it. -/
inductive Way (g : LinkGraph) : Nat → Link → Prop
  | root : Way g 0 g.root
  | step {n : Nat} {l k : Link} {b : Block} (hl : Way g n l) (hb : g.opens? l = some b)
    (hk : k ∈ b.links) : Way g (n + 1) k

/-- The fewest links from the root to a name. -/
def Distance (g : LinkGraph) (name : String) (n : Nat) : Prop :=
  IsLeast {m | ∃ l, g.Way m l ∧ l.target = name} n

/-- Whether a name has an answer, and one that matches it if it is a fingerprint. -/
def Intact (g : LinkGraph) (name : String) : Prop :=
  ∃ v, g.answer name = .ok v ∧ ∀ fp, Fingerprint.decode name = .ok fp → fp.isOf v.bytes

/-- How what is stored under a name opens does not depend on the link to it. -/
def Uniform (g : LinkGraph) : Prop :=
  ∀ n l m k, g.Way n l → g.Way m k → l.target = k.target →
    Option.Rel (fun b c => b.same c) (g.opens? l) (g.opens? k)

def read (g : LinkGraph) (l : Link) : Except Error Found :=
  match g.answer l.target with
  | .error e => .error e
  | .ok v =>
    if l.admits v.bytes then
      match l.openBytes? g.keys v.bytes with
      | some b => .ok (.block b)
      | none => .ok (.locked v)
    else .error (.integrity l.target)

variable {g : LinkGraph} {l k : Link} {f f' : Found} {m n : Nat} {name : String}

section Read

theorem exists_of_read (h : g.read l = .ok f) :
    ∃ v, g.answer l.target = .ok v ∧ l.admits v.bytes ∧
      f = ((g.opens? l).map Found.block).getD (.locked v) := by
  rw [read] at h
  split at h
  · cases h
  · next v hv =>
    split at h
    · next hadmits =>
      refine ⟨v, hv, hadmits, ?_⟩
      rw [opens?, hv]
      split at h
      · next hb =>
        simp only [hb]
        exact (Except.ok.inj h).symm
      · next hb =>
        simp only [hb]
        exact (Except.ok.inj h).symm
    · cases h

theorem exists_read_iff : (∃ f, g.read l = .ok f) ↔ g.Intact l.target := by
  constructor
  · rintro ⟨f, hf⟩
    obtain ⟨v, hv, hadmits, -⟩ := exists_of_read hf
    exact ⟨v, hv, Link.admits_iff.mp hadmits⟩
  · rintro ⟨v, hv, hmatches⟩
    rw [read, hv]
    simp only [if_pos (Link.admits_iff.mpr hmatches)]
    split <;> exact ⟨_, rfl⟩

theorem mem_links_of_read (h : g.read l = .ok f) :
    k ∈ f.links ↔ ∃ b, g.opens? l = some b ∧ k ∈ b.links := by
  obtain ⟨v, -, -, rfl⟩ := exists_of_read h
  cases g.opens? l with
  | none => simp [Found.links]
  | some b => simp [Found.links]

end Read

section Uniform

/-- What is below a name is below every link to it. -/
theorem Uniform.opens (hg : g.Uniform) (hl : g.Way n l) (hk : g.Way m k)
    (htarget : l.target = k.target) {b : Block} (hb : g.opens? l = some b) :
    ∃ c, g.opens? k = some c ∧ c.links = b.links := by
  have hrel := hg n l m k hl hk htarget
  rw [hb] at hrel
  match g.opens? k, hrel with
  | some c, .some hsame => exact ⟨c, rfl, (Block.links_eq_of_same hsame).symm⟩

/-- What a link on some way to a name reads. -/
def Finds (g : LinkGraph) (name : String) (f : Found) : Prop :=
  ∃ n l, g.Way n l ∧ l.target = name ∧ g.read l = .ok f

theorem Finds.intact (h : g.Finds name f) : g.Intact name := by
  obtain ⟨n, l, -, rfl, hf⟩ := h
  exact exists_read_iff.mp ⟨f, hf⟩

theorem Finds.same (hg : g.Uniform) (h : g.Finds name f) (h' : g.Finds name f') : f.Same f' := by
  obtain ⟨n, l, hl, rfl, hf⟩ := h
  obtain ⟨m, k, hk, htarget, hf'⟩ := h'
  obtain ⟨v, hv, -, rfl⟩ := exists_of_read hf
  obtain ⟨u, hu, -, rfl⟩ := exists_of_read hf'
  have hvu : v = u := by
    rw [htarget, hv] at hu
    exact Except.ok.inj hu
  match g.opens? l, g.opens? k, hg n l m k hl hk htarget.symm with
  | some _, some _, .some hsame => exact hsame
  | none, none, .none => exact hvu

/-- The links found under a name go on from every way to it. -/
theorem Finds.way_succ (hg : g.Uniform) (h : g.Finds name f) (hl : g.Way n l)
    (htarget : l.target = name) (hk : k ∈ f.links) : g.Way (n + 1) k := by
  obtain ⟨m, j, hj, hname, hf⟩ := h
  obtain ⟨b, hb, hkb⟩ := (mem_links_of_read hf).mp hk
  obtain ⟨c, hc, hlinks⟩ := hg.opens hj hl (hname.trans htarget.symm) hb
  exact hl.step hc (hlinks ▸ hkb)

theorem Finds.mem_links (hg : g.Uniform) (h : g.Finds name f) (hl : g.Way n l)
    (htarget : l.target = name) {b : Block} (hb : g.opens? l = some b) (hk : k ∈ b.links) :
    k ∈ f.links := by
  obtain ⟨m, j, hj, hname, hf⟩ := h
  obtain ⟨c, hc, hlinks⟩ := hg.opens hl hj (htarget.trans hname.symm) hb
  exact (mem_links_of_read hf).mpr ⟨c, hc, hlinks ▸ hk⟩

end Uniform

section Distance

theorem Way.exists_distance (hl : g.Way n l) : ∃ m ≤ n, g.Distance l.target m := by
  classical
  have hex : ∃ m, ∃ k, g.Way m k ∧ k.target = l.target := ⟨n, l, hl, rfl⟩
  exact ⟨Nat.find hex, Nat.find_le ⟨l, hl, rfl⟩, Nat.find_spec hex,
    fun m hm => Nat.find_le hm⟩

theorem Distance.le (h : g.Distance name n) (hl : g.Way m l) (htarget : l.target = name) :
    n ≤ m :=
  h.2 ⟨l, hl, htarget⟩

/-- The last link but one on a shortest way is on a shortest way itself. -/
theorem Distance.exists_pred (hg : g.Uniform) (h : g.Distance name (n + 1)) :
    ∃ name', g.Distance name' n := by
  obtain ⟨⟨k, hk, rfl⟩, hleast⟩ := h
  cases hk with
  | @step _ l _ b hl hb hkb =>
    obtain ⟨m, hm, hdist⟩ := hl.exists_distance
    obtain ⟨l', hl', htarget⟩ := hdist.1
    obtain ⟨c, hc, hlinks⟩ := hg.opens hl hl' htarget.symm hb
    have hle : n + 1 ≤ m + 1 := hleast ⟨k, hl'.step hc (hlinks ▸ hkb), rfl⟩
    obtain rfl : m = n := by omega
    exact ⟨l.target, hdist⟩

/-- Distances leave no gap. -/
theorem Distance.exists_of_le (hg : g.Uniform) (h : g.Distance name n) (hm : m ≤ n) :
    ∃ name', g.Distance name' m := by
  induction n generalizing name with
  | zero => exact ⟨name, Nat.le_zero.mp hm ▸ h⟩
  | succ n ih =>
    rcases Nat.lt_or_eq_of_le hm with hlt | rfl
    · obtain ⟨name', hpred⟩ := h.exists_pred hg
      exact ih hpred (Nat.le_of_lt_succ hlt)
    · exact ⟨name, h⟩

end Distance

end LinkGraph

end ContentAddressed
