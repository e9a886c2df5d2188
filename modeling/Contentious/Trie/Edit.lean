import Contentious.Trie.Vector

/-!
# Trie — what an update writes

The spec of an update says what its own vector reads afterwards. This
file says what it does to every other node. An update is a list of
primitive edits (`Edits`), and each of them is one of three: a node
allocated under an allowed id, a child pointer set, a value set — and
the last two only in nodes the copy test `cp` let through, or in nodes
the update made itself. What any such list keeps is proved once
(`Edits.cell_eq`, `Edits.id_eq`, `Edits.closed`), and each update is
shown to be one, whatever heap it is run in and whether or not its own
vector is well formed.
-/

namespace Contentious

variable [K : BpBits] {T : Type}

/-- Every child pointer of the node leads to a node of `S` that is there. -/
def Within (S : Addr → Prop) (h : Heap T) (nd : BpNode T) : Prop :=
  ∀ c k b, nd.u = .branches c → c k = some b → S b ∧ b < h.next

/-- A set of nodes that child pointers do not lead out of. -/
def Closed (S : Addr → Prop) (h : Heap T) : Prop :=
  ∀ a < h.next, S a → Within S h (h.cell a)

/-- The node at `a` may be written: it was made since `base`, or the test
`cp` does not ask for it to be copied. -/
def Writable (base : ℕ) (cp : Id → Bool) (h : Heap T) (a : Addr) : Prop :=
  base ≤ a ∨ cp (h.cell a).id = false

/-- **A list of edits** of writable nodes, making nodes with ids that `N`
allows and setting pointers to nodes of `S`. -/
inductive Edits (base : ℕ) (cp : Id → Bool) (N : Id → Prop) (S : Addr → Prop) (h : Heap T) :
    Heap T → Prop
  | refl : Edits base cp N S h h
  | alloc {h' : Heap T} (nd : BpNode T) : Edits base cp N S h h' → N nd.id →
      Within S h' nd → Edits base cp N S h (h'.alloc nd).1
  | setChild {h' h'' : Heap T} {a : Addr} {s : Fin bpWidth} {p : Option Addr} :
      Edits base cp N S h h' → Writable base cp h' a → S a →
      (∀ b, p = some b → S b ∧ b < h'.next) → setChild h' a s p = .ok h'' → Edits base cp N S h h''
  | setLeaf {h' h'' : Heap T} {a : Addr} {s : Fin bpWidth} {x : T} : Edits base cp N S h h' →
      Writable base cp h' a → S a → setLeaf h' a s x = .ok h'' → Edits base cp N S h h''

variable {h h' h'' : Heap T} {a b r : Addr} {i k n base : ℕ} {x y : T} {s : Fin bpWidth}
variable {cp : Id → Bool} {N : Id → Prop} {S : Addr → Prop} {id : Id} {v v' : BpVector}

theorem setChild_eq_ok {p : Option Addr} (he : setChild h a s p = .ok h') :
    ∃ c, (h.cell a).u = .branches c ∧
      h' = h.write a ⟨.branches (Function.update c s p), (h.cell a).id⟩ := by
  cases hu : (h.cell a).u with
  | branches c => rw [setChild_of hu] at he; cases he; exact ⟨c, rfl, rfl⟩
  | leaves c => rw [setChild, BpNode.asBranches, hu] at he; cases he

theorem setLeaf_eq_ok (he : setLeaf h a s x = .ok h') :
    ∃ c, (h.cell a).u = .leaves c ∧
      h' = h.write a ⟨.leaves (Function.update c s x), (h.cell a).id⟩ := by
  cases hu : (h.cell a).u with
  | leaves c => rw [setLeaf_of hu] at he; cases he; exact ⟨c, rfl, rfl⟩
  | branches c => rw [setLeaf, BpNode.asLeaves, hu] at he; cases he

/-- A child pointer or a value set: the address written, with the id it
had, and nothing else. -/
theorem setChild_cell {p : Option Addr} (he : setChild h a s p = .ok h') :
    h'.next = h.next ∧ (h'.cell a).id = (h.cell a).id ∧ ∀ d, d ≠ a → h'.cell d = h.cell d := by
  obtain ⟨c, -, rfl⟩ := setChild_eq_ok he
  exact ⟨rfl, by rw [Store.write_cell_self], fun d hd => Store.write_cell_ne hd⟩

theorem setLeaf_cell (he : setLeaf h a s x = .ok h') :
    h'.next = h.next ∧ (h'.cell a).id = (h.cell a).id ∧ ∀ d, d ≠ a → h'.cell d = h.cell d := by
  obtain ⟨c, -, rfl⟩ := setLeaf_eq_ok he
  exact ⟨rfl, by rw [Store.write_cell_self], fun d hd => Store.write_cell_ne hd⟩

namespace Edits

theorem trans (e₁ : Edits base cp N S h h') (e₂ : Edits base cp N S h' h'') :
    Edits base cp N S h h'' := by
  induction e₂ with
  | refl => exact e₁
  | alloc nd _ hN hS ih => exact ih.alloc nd hN hS
  | setChild _ hw ha hb he ih => exact ih.setChild hw ha hb he
  | setLeaf _ hw ha he ih => exact ih.setLeaf hw ha he

/-- They are edits under a test that asks for less. -/
theorem weaken {cp' : Id → Bool} (hcp : ∀ other, cp' other = true → cp other = true)
    (e : Edits base cp N S h h') : Edits base cp' N S h h' := by
  have hw : ∀ {h₁ : Heap T} {d : Addr}, Writable base cp h₁ d → Writable base cp' h₁ d :=
    fun hw => hw.imp_right fun hid => Bool.eq_false_iff.2 fun h => by
      rw [hcp _ h] at hid
      exact nomatch hid
  induction e with
  | refl => exact .refl
  | alloc nd _ hN hS ih => exact ih.alloc nd hN hS
  | setChild _ hwr ha hb he ih => exact ih.setChild (hw hwr) ha hb he
  | setLeaf _ hwr ha he ih => exact ih.setLeaf (hw hwr) ha he

/-- They may be allowed to give more ids. -/
theorem allow {N' : Id → Prop} (hN : ∀ id, N id → N' id) (e : Edits base cp N S h h') :
    Edits base cp N' S h h' := by
  induction e with
  | refl => exact .refl
  | alloc nd _ hid hS ih => exact ih.alloc nd (hN _ hid) hS
  | setChild _ hw ha hb he ih => exact ih.setChild hw ha hb he
  | setLeaf _ hw ha he ih => exact ih.setLeaf hw ha he

theorem next_le (e : Edits base cp N S h h') : h.next ≤ h'.next := by
  induction e with
  | refl => exact le_rfl
  | alloc nd _ _ _ ih => exact Nat.le_succ_of_le ih
  | setChild _ _ _ _ he ih => rw [(setChild_cell he).1]; exact ih
  | setLeaf _ _ _ he ih => rw [(setLeaf_cell he).1]; exact ih

/-- **A node keeps its id.** -/
theorem id_eq (e : Edits base cp N S h h') (ha : a < h.next) : (h'.cell a).id = (h.cell a).id := by
  induction e with
  | refl => rfl
  | alloc nd e _ _ ih => rw [Store.alloc_cell_old (lt_of_lt_of_le ha e.next_le), ih]
  | @setChild _ _ d _ _ _ _ _ _ he ih =>
    by_cases had : a = d
    · subst had; rw [(setChild_cell he).2.1, ih]
    · rw [(setChild_cell he).2.2 a had, ih]
  | @setLeaf _ _ d _ _ _ _ _ he ih =>
    by_cases had : a = d
    · subst had; rw [(setLeaf_cell he).2.1, ih]
    · rw [(setLeaf_cell he).2.2 a had, ih]

/-- **A node the test protects is not written.** -/
theorem cell_eq (e : Edits base cp N S h h') (ha : a < h.next) (hbase : a < base)
    (hcp : cp (h.cell a).id = true) : h'.cell a = h.cell a := by
  have hnot : ∀ {h₁ : Heap T} {d : Addr}, Edits base cp N S h h₁ → Writable base cp h₁ d →
    a ≠ d := by
    rintro h₁ d e₁ hw rfl
    rcases hw with hw | hw
    · exact absurd hbase (Nat.not_lt.2 hw)
    · rw [e₁.id_eq ha, hcp] at hw
      exact nomatch hw
  induction e with
  | refl => rfl
  | alloc nd e _ _ ih => rw [Store.alloc_cell_old (lt_of_lt_of_le ha e.next_le), ih]
  | setChild e hw _ _ he ih => rw [(setChild_cell he).2.2 a (hnot e hw), ih]
  | setLeaf e hw _ he ih => rw [(setLeaf_cell he).2.2 a (hnot e hw), ih]

/-- **A node outside `S` is not written.** -/
theorem cell_eq_of_not_mem (e : Edits base cp N S h h') (ha : a < h.next) (hS : ¬ S a) :
    h'.cell a = h.cell a := by
  have hne : ∀ {d : Addr}, S d → a ≠ d := by rintro d hd rfl; exact hS hd
  induction e with
  | refl => rfl
  | alloc nd e _ _ ih => rw [Store.alloc_cell_old (lt_of_lt_of_le ha e.next_le), ih]
  | setChild e _ hd _ he ih => rw [(setChild_cell he).2.2 a (hne hd), ih]
  | setLeaf e _ hd he ih => rw [(setLeaf_cell he).2.2 a (hne hd), ih]

/-- A node that was made carries an allowed id. -/
theorem new_id (e : Edits base cp N S h h') (ha : h.next ≤ a) (ha' : a < h'.next) :
    N (h'.cell a).id := by
  induction e with
  | refl => exact absurd ha' (Nat.not_lt.2 ha)
  | @alloc h₁ nd e hN _ ih =>
    by_cases hd : a = h₁.next
    · subst hd; rw [Store.alloc_cell_new]; exact hN
    · have hlt : a < h₁.next := Nat.lt_of_le_of_ne (Nat.le_of_lt_succ ha') hd
      rw [Store.alloc_cell_old hlt]; exact ih hlt
  | @setChild _ _ d _ _ _ _ _ _ he ih =>
    rw [(setChild_cell he).1] at ha'
    by_cases had : a = d
    · subst had; rw [(setChild_cell he).2.1]; exact ih ha'
    · rw [(setChild_cell he).2.2 a had]; exact ih ha'
  | @setLeaf _ _ d _ _ _ _ _ he ih =>
    rw [(setLeaf_cell he).1] at ha'
    by_cases had : a = d
    · subst had; rw [(setLeaf_cell he).2.1]; exact ih ha'
    · rw [(setLeaf_cell he).2.2 a had]; exact ih ha'

/-- A set that pointers do not lead out of stays one. -/
theorem closed (e : Edits base cp N S h h') (hS : Closed S h) : Closed S h' := by
  induction e with
  | refl => exact hS
  | @alloc h₁ nd e _ hnd ih =>
    have hup : ∀ {nd : BpNode T}, Within S h₁ nd → Within S (h₁.alloc nd).1 nd :=
      fun hw c k b hu hk => ⟨(hw c k b hu hk).1, Nat.lt_succ_of_lt (hw c k b hu hk).2⟩
    intro a ha hSa
    by_cases hd : a = h₁.next
    · subst hd; rw [Store.alloc_cell_new]; exact hup hnd
    · have hlt : a < h₁.next := Nat.lt_of_le_of_ne (Nat.le_of_lt_succ ha) hd
      rw [Store.alloc_cell_old hlt]
      exact hup (ih a hlt hSa)
  | @setChild h₁ _ d s e _ _ _ hSe he ih =>
    obtain ⟨c₁, hu₁, rfl⟩ := setChild_eq_ok he
    intro a ha hSa
    by_cases had : a = d
    · subst had
      rw [Store.write_cell_self]
      rintro c k b hu hk
      cases hu
      by_cases hks : k = s
      · subst hks; rw [Function.update_self] at hk; exact hSe b hk
      · rw [Function.update_of_ne hks] at hk
        exact ih a ha hSa c₁ k b hu₁ hk
    · rw [Store.write_cell_ne had]; exact ih a ha hSa
  | @setLeaf h₁ _ d s _ _ _ _ he ih =>
    obtain ⟨c₁, -, rfl⟩ := setLeaf_eq_ok he
    intro a ha hSa
    by_cases had : a = d
    · subst had
      rw [Store.write_cell_self]
      exact fun c k b hu _ => nomatch hu
    · rw [Store.write_cell_ne had]; exact ih a ha hSa

theorem writable (e : Edits base cp N S h h') (ha : a < h.next) (hw : Writable base cp h a) :
    Writable base cp h' a := by
  rwa [Writable, e.id_eq ha]

end Edits

/-! ## The updates are edits

Each is run from a heap that has grown past `base`, over a set `S` that
holds its root and every node made since `base`, and leaves such a set. -/

open BpVector

/-- What the edits of an update start from. -/
structure Scope (base : ℕ) (S : Addr → Prop) (h : Heap T) : Prop where
  base_le : base ≤ h.next
  new : ∀ a, base ≤ a → S a
  closed : Closed S h

/-- A node the update can go on from: in `S`, there, and writable. -/
structure Owned (base : ℕ) (cp : Id → Bool) (S : Addr → Prop) (h : Heap T) (a : Addr) : Prop where
  mem : S a
  lt : a < h.next
  writable : Writable base cp h a

/-- What an update has done when it got to the heap `h'` and the node `a`. -/
structure Edited (base : ℕ) (cp : Id → Bool) (N : Id → Prop) (S : Addr → Prop) (h h' : Heap T)
    (a : Addr) : Prop where
  edits : Edits base cp N S h h'
  owned : Owned base cp S h' a

/-- Edits leave an owned node owned. -/
theorem Owned.edits (ha : Owned base cp S h a) (e : Edits base cp N S h h') :
    Owned base cp S h' a :=
  ⟨ha.mem, lt_of_lt_of_le ha.lt e.next_le, e.writable ha.lt ha.writable⟩

namespace Scope

theorem edits (hS : Scope base S h) (e : Edits base cp N S h h') : Scope base S h' :=
  ⟨le_trans hS.base_le e.next_le, hS.new, e.closed hS.closed⟩

/-- A new node may be written. -/
theorem alloc (cp : Id → Bool) (hS : Scope base S h) (nd : BpNode T) (hN : N nd.id)
    (hnd : Within S h nd) :
    Edited base cp N S h (h.alloc nd).1 h.next :=
  ⟨.alloc nd .refl hN hnd, hS.new _ hS.base_le, Nat.lt_succ_self _, .inl hS.base_le⟩

theorem copyNode (hS : Scope base S h) (ha : S a) (hlt : a < h.next) (hN : N id) :
    Edited base cp N S h (copyNode h a id).1 (copyNode h a id).2 :=
  hS.alloc cp _ hN fun c k b hu hk => hS.closed a hlt ha c k b hu hk

theorem ownRoot (cp : Id → Bool) (hS : Scope base S h) (hr : S r) (hlt : r < h.next) (hN : N id) :
    Edited base cp N S h (ownRoot cp id h r).1 (ownRoot cp id h r).2 := by
  rw [BpVector.ownRoot]
  split
  · exact hS.copyNode hr hlt hN
  · next hc => exact ⟨.refl, hr, hlt, .inr (by simpa using hc)⟩

end Scope

namespace Edited

theorem trans {c d : Addr} (e₁ : Edited base cp N S h h' c) (e₂ : Edited base cp N S h' h'' d) :
    Edited base cp N S h h'' d := ⟨e₁.edits.trans e₂.edits, e₂.owned⟩

/-- Edits further on leave the node owned. -/
theorem followed (e₁ : Edited base cp N S h h' a) (e₂ : Edits base cp N S h' h'') :
    Edited base cp N S h h'' a := ⟨e₁.edits.trans e₂, e₁.owned.edits e₂⟩

end Edited

namespace Owned

/-- Setting a child of an owned node to an owned node. -/
theorem setChild (ha : Owned base cp S h a) (e : Edited base cp N S h h' b)
    (he : setChild h' a s (some b) = .ok h'') : Edited base cp N S h h'' b := by
  have e' := e.edits.setChild (e.edits.writable ha.lt ha.writable) ha.mem
    (fun d hd => by cases hd; exact ⟨e.owned.mem, e.owned.lt⟩) he
  obtain ⟨hn, hid, hcell⟩ := setChild_cell he
  have hidb : (h''.cell b).id = (h'.cell b).id := by
    by_cases hba : b = a
    · subst hba; exact hid
    · rw [hcell b hba]
  exact ⟨e', e.owned.mem, by rw [hn]; exact e.owned.lt, by
    have := e.owned.writable; rwa [Writable, hidb]⟩

theorem ownChild (ha : Owned base cp S h a) (hS : Scope base S h) (hN : N id)
    (he : ownChild cp id h a s = .ok (h', b)) : Edited base cp N S h h' b := by
  obtain ⟨d, hd, he⟩ := Exec.bind_eq_ok.1 he
  obtain ⟨c, hu, hk⟩ := child_eq_ok.1 hd
  obtain ⟨hSd, hdlt⟩ := hS.closed a ha.lt ha.mem c s d hu hk
  split at he
  · obtain ⟨h₁, h₁s, he⟩ := Exec.bind_eq_ok.1 he
    cases he
    exact ha.setChild (hS.copyNode hSd hdlt hN) h₁s
  · next hc =>
    cases he
    exact ⟨.refl, hSd, hdlt, .inr (by simpa using hc)⟩

theorem descend (ha : Owned base cp S h a) (hS : Scope base S h) (hN : N id)
    (he : descend cp id i k n h a = .ok (h', b)) : Edited base cp N S h h' b := by
  induction k generalizing n h a with
  | zero => cases he; exact ⟨.refl, ha⟩
  | succ k ih =>
    obtain ⟨⟨h₁, d⟩, hd, he⟩ := Exec.bind_eq_ok.1 he
    have e₁ := ha.ownChild hS hN hd
    exact e₁.trans (ih e₁.owned (hS.edits e₁.edits) he)

theorem setLeaf (ha : Owned base cp S h a) (he : setLeaf h a s x = .ok h') :
    Edits base cp N S h h' := .setLeaf .refl ha.writable ha.mem he

theorem rotate (ha : Owned base cp S h r) (hS : Scope base S h) {newId : Addr → Id}
    (hN : ∀ a, N (newId a)) (he : rotate newId h r = .ok (h', b)) : Edited base cp N S h h' b := by
  obtain ⟨h₁, h₁s, he⟩ := Exec.bind_eq_ok.1 he
  cases he
  have e := hS.alloc (N := N) cp (BpNode.newBranches (newId h.next)) (hN _)
    (fun c k b hu hk => by cases hu; exact nomatch hk)
  have hr : S r ∧ r < (h.alloc (BpNode.newBranches (T := T) (newId h.next))).1.next :=
    ⟨ha.mem, Nat.lt_succ_of_lt ha.lt⟩
  obtain ⟨hn, hid, -⟩ := setChild_cell h₁s
  exact ⟨e.edits.setChild e.owned.writable e.owned.mem (fun d hd => by cases hd; exact hr) h₁s,
    e.owned.mem, by rw [hn]; exact e.owned.lt,
    .inl hS.base_le⟩

theorem spine [Inhabited T] (ha : Owned base cp S h a) (hS : Scope base S h) {newId : Addr → Id}
    (hN : ∀ a, N (newId a)) (he : spine newId i k h a = .ok (h', b)) :
    Edited base cp N S h h' b := by
  induction k using Nat.strong_induction_on generalizing h a with
  | _ k ih =>
    match k with
    | 0 => cases he; exact ⟨.refl, ha⟩
    | 1 =>
      obtain ⟨h₁, h₁s, he⟩ := Exec.bind_eq_ok.1 he
      cases he
      exact ha.setChild (hS.alloc cp (BpNode.newLeaves (newId h.next)) (hN _)
        fun c k b hu _ => nomatch hu) h₁s
    | m + 2 =>
      obtain ⟨h₁, h₁s, he⟩ := Exec.bind_eq_ok.1 he
      have e := ha.setChild (hS.alloc (N := N) cp (BpNode.newBranches (newId h.next)) (hN _)
        fun c k b hu hk => by cases hu; exact nomatch hk) h₁s
      exact e.trans (ih (m + 1) (by omega) e.owned (hS.edits e.edits) he)

theorem grow [Inhabited T] (ha : Owned base cp S h r) (hS : Scope base S h) {newId : Addr → Id}
    (hid : N id) (hN : ∀ a, N (newId a)) (he : grow cp id newId i k n h r x = .ok h') :
    Edits base cp N S h h' := by
  obtain ⟨⟨h₁, a⟩, hd, he⟩ := Exec.bind_eq_ok.1 he
  have e₁ := ha.descend hS hid hd
  obtain ⟨⟨h₂, b⟩, hs, he⟩ := Exec.bind_eq_ok.1 he
  have e₂ := e₁.owned.spine (hS.edits e₁.edits) hN hs
  exact (e₁.trans e₂).edits.trans (e₂.owned.setLeaf he)

end Owned

namespace Scope

/-- **`set` and `mut_set` are edits.** -/
theorem setWith (hS : Scope base S h) (hr : S v.root) (hlt : v.root < h.next) (hN : N v.id)
    (he : setWith cp h v i x = .ok (h', v')) :
    Edited base cp N S h h' v'.root ∧ v'.id = v.id := by
  obtain ⟨⟨h₂, a⟩, hd, he⟩ := Exec.bind_eq_ok.1 he
  obtain ⟨h₃, hl, he⟩ := Exec.bind_eq_ok.1 he
  cases he
  have e₁ := hS.ownRoot cp hr hlt hN
  have e₂ := e₁.owned.descend (hS.edits e₁.edits) hN hd
  exact ⟨e₁.followed (e₂.edits.trans (e₂.owned.setLeaf hl)), rfl⟩

theorem pushLeaf [Inhabited T] (hS : Scope base S h) (hr : S v.root) (hlt : v.root < h.next)
    {newId : Addr → Id} (hid : N v.id) (hN : ∀ a, N (newId a))
    (he : pushLeaf cp newId h v x = .ok (h', v')) :
    Edited base cp N S h h' v'.root ∧ v'.id = v.id := by
  obtain ⟨cap, -, he⟩ := Exec.bind_eq_ok.1 he
  have e₁ := hS.ownRoot cp hr hlt hid
  have hS₁ := hS.edits e₁.edits
  -- the two ways on: a new root over the owned one, or the owned one
  have hgrow : ∀ {h₂ : Heap T} {r levels k}, Edited base cp N S h h₂ r →
      (grow cp v.id newId v.sz k levels h₂ r x >>= fun h₃ =>
        (.ok (h₃, ⟨v.sz + 1, levels, r, v.id⟩) : Exec (Heap T × BpVector))) = .ok (h', v') →
      Edited base cp N S h h' v'.root ∧ v'.id = v.id := by
    intro h₂ r levels k e₂ he
    obtain ⟨h₃, hg, he⟩ := Exec.bind_eq_ok.1 he
    cases he
    exact ⟨e₂.followed (e₂.owned.grow (hS.edits e₂.edits) hid hN hg), rfl⟩
  dsimp only at he
  split at he
  · obtain ⟨⟨h₂, d⟩, hro, he⟩ := Exec.bind_eq_ok.1 he
    exact hgrow (e₁.trans (e₁.owned.rotate hS₁ hN hro)) he
  · exact hgrow e₁ he

/-- **`push_back` is edits.** -/
theorem pushBack [Inhabited T] {D : Der} (hS : Scope base S h) (hr : S v.root)
    (hlt : v.root < h.next) (hN : N v.id) (he : pushBack D h v x = .ok (h', v')) :
    Edited base (nodeCopy D v.id) N S h h' v'.root ∧ v'.id = v.id := by
  rw [BpVector.pushBack] at he
  split at he
  · obtain ⟨⟨h₁, v₁⟩, hs, he⟩ := Exec.bind_eq_ok.1 he
    cases he
    have e := hS.setWith hr hlt hN hs
    exact e
  · exact hS.pushLeaf hr hlt hN (fun _ => hN) he

/-- **`mut_push_back` is edits**, if the root it fills first may be
written. The code does not ask. -/
theorem mutPushWith [Inhabited T] (hS : Scope base S h) (hr : S v.root) (hlt : v.root < h.next)
    {newId : Addr → Id} (hid : N v.id) (hN : ∀ a, N (newId a))
    (hroot : v.sz = 0 → Writable base cp h v.root)
    (he : mutPushWith cp newId h v x = .ok (h', v')) :
    Edited base cp N S h h' v'.root ∧ v'.id = v.id := by
  rw [BpVector.mutPushWith] at he
  split at he
  · obtain ⟨⟨h₁, v₁⟩, hs, he⟩ := Exec.bind_eq_ok.1 he
    cases he
    have e := hS.setWith hr hlt hid hs
    exact e
  · next hmod =>
    split at he
    · next hsz =>
      obtain ⟨h₁, hs, he⟩ := Exec.bind_eq_ok.1 he
      cases he
      have h0 : v.sz = 0 := by rwa [and_bpMask, Nat.mod_eq_of_lt hsz, not_not] at hmod
      have ho : Owned base cp S h v.root := ⟨hr, hlt, hroot h0⟩
      exact ⟨(Edited.mk .refl ho).followed (ho.setLeaf hs), rfl⟩
    · exact hS.pushLeaf hr hlt hid hN he

end Scope

end Contentious
