import Contentious.Common.Machine
import Contentious.Trie.Total

/-!
# Trie — a pipeline of calls over shared tries

`foreach(mult, val)` on a vector gives another, `foreach` on that one a
third, and the workers are at any of these calls at any time, a step of one
after a step of another. No element is copied for it: the result of a call
starts as the trie of its source, the vector that a worker detaches from
takes a new id and leaves its trie to the worker, and the worker's splinter
is that trie once more. What keeps them apart is the ids alone, which tell
each of them what it must copy before it writes.

A vector and its result share the trie that is written in place until the
first worker detaches from the vector, so that the elements of the result
may change before a worker has reattached to it, and this is allowed for. A
splinter, and what a worker has detached from, no other thread writes
(`Pipeline.unwritten`).

A step is what is done under `dlck`, or a round of a loop, which touches no
node that another thread writes; the copy that `foreach` makes of its source
takes no lock, and is one step all the same. The index map is the identity
and nothing is contended, so that the resolutions compare nothing and are
left out.
-/

namespace Contentious

open BpVector

variable [K : BpBits] {T : Type}

/-- A worker within `foreach_splt`: its block, its splinter, and `end` and
`it` once it has formed them. -/
structure Task where
  a : ℕ
  b : ℕ
  splt : BpVector
  loop : Option (BpIterator × BpIterator)

/-- The vectors of the pipeline, the source and the results of the calls,
and the workers. -/
structure Pipeline (T : Type) [BpBits] where
  heap : Heap T
  /-- `unique_id`, as the number it has come to -/
  unique : ℕ
  /-- the calls so far -/
  calls : ℕ
  /-- `_data` of the `k`-th vector -/
  data : ℕ → BpVector
  /-- `_used[p]` in the entry of the `k`-th call -/
  used : ℕ → ℕ → BpVector
  task : ℕ → Option Task
  /-- the tasks a worker is done with -/
  done : ℕ → ℕ
  stopped : Option Fault

/-- What can happen next. -/
inductive PipeAct
  /-- the main thread calls `foreach` on the last vector there is -/
  | call
  | detach (p : ℕ)
  /-- the worker forms `end` and `it` -/
  | enter (p : ℕ)
  /-- one round of its loop -/
  | body (p : ℕ)
  | reattach (p : ℕ)
deriving DecidableEq, Repr

namespace Pipeline

/-- `get_unique_id()` -/
def uniqueId (n : ℕ) : Id := BitVec.ofNat 32 n

/-- `foreach`: the result is a copy of the source, under an id of its own. -/
def call (s : Pipeline T) : Pipeline T :=
  { s with
    unique := s.unique + 1
    calls := s.calls + 1
    data := Function.update s.data (s.calls + 1)
      (Tr.withId (s.data s.calls) (uniqueId s.unique)) }

/-- `foreach_splt`, as far as `detach(dep, p)`: the vector goes on under a
new id, and the splinter has the one after. -/
def detach (hwconc : ℕ) (s : Pipeline T) (p : ℕ) : Pipeline T :=
  let k := s.done p
  let (a, b) := Cont.partition hwconc p (s.data k).sz
  let used := s.data k
  { s with
    unique := s.unique + 2
    data := Function.update s.data k (Tr.withId used (uniqueId s.unique))
    used := Function.update s.used k (Function.update (s.used k) p used)
    task := Function.update s.task p
      (some ⟨a, b, Tr.withId used (uniqueId (s.unique + 1)), none⟩) }

/-- The worker has come so far. -/
def looped (s : Pipeline T) (h : Heap T) (p : ℕ) (t : Task) : Pipeline T :=
  { s with heap := h, task := Function.update s.task p (some t) }

/-- The worker is done with its task, and has left the result `d`. -/
def reattached (s : Pipeline T) (h : Heap T) (p : ℕ) (d : BpVector) : Pipeline T :=
  let k := s.done p + 1
  { s with
    heap := h
    data := Function.update s.data k d
    task := Function.update s.task p none
    done := Function.update s.done p k }

/-- `end = splt._data.begin() + b; it = splt._data.begin() + a` -/
def enter (s : Pipeline T) (p : ℕ) (t : Task) : Pipeline T :=
  match range .mutable s.heap t.splt t.a t.b with
  | .error e => { s with stopped := some e }
  | .ok (h, splt, last, it) => s.looped h p { t with splt := splt, loop := some (last, it) }

/-- `*it *= val; ++it` -/
def body [Mul T] (vals : ℕ → T) (s : Pipeline T) (p : ℕ) (t : Task) (last it : BpIterator) :
    Pipeline T :=
  match modifyStep (· * vals (s.done p)) ⟨s.heap, it, []⟩ with
  | .error e => { s with stopped := some e }
  | .ok r => s.looped r.heap p { t with loop := some (last, r.it) }

/-- `reattach(splt, dep, p, a, b)` -/
def reattach (rounds : ℕ) (s : Pipeline T) (p : ℕ) (t : Task) : Pipeline T :=
  match assign rounds .tr s.heap (s.data (s.done p + 1)) t.splt t.a t.b with
  | .error e => { s with stopped := some e }
  | .ok (h, d) => s.reattached h p d

/-- A vector, and no call yet. -/
def start (h : Heap T) (v : BpVector) (unique : ℕ) : Pipeline T where
  heap := h
  unique := unique
  calls := 0
  data := fun _ => v
  used := fun _ _ => v
  task := fun _ => none
  done := fun _ => 0
  stopped := none

end Pipeline

/-- **The pipeline**: every interleaving of the main thread and the
workers, which take the tasks of the calls in order. -/
def pipeline [Mul T] (hwconc rounds : ℕ) (vals : ℕ → T) : Machine (Pipeline T) PipeAct where
  step := fun s act =>
    if s.stopped.isSome then none
    else
      match act with
      | .call => some s.call
      | .detach p =>
        if p < hwconc ∧ (s.task p).isNone ∧ s.done p < s.calls then some (s.detach hwconc p)
        else none
      | .enter p => (s.task p).bind fun t => if t.loop.isNone then some (s.enter p t) else none
      | .body p => (s.task p).bind fun t => t.loop.bind fun l =>
          if !l.2.eq l.1 then some (s.body vals p t l.1 l.2) else none
      | .reattach p => (s.task p).bind fun t => t.loop.bind fun l =>
          if l.2.eq l.1 then some (s.reattach rounds p t) else none

namespace Pipeline

/-- What a step does. -/
inductive Moves [Mul T] (hwconc rounds : ℕ) (vals : ℕ → T) (s : Pipeline T) :
    PipeAct → Pipeline T → Prop
  | call : Moves hwconc rounds vals s .call s.call
  | detach {p : ℕ} (hp : p < hwconc) (ht : s.task p = none) (hd : s.done p < s.calls) :
      Moves hwconc rounds vals s (.detach p) (s.detach hwconc p)
  | enter {p : ℕ} {t : Task} (ht : s.task p = some t) (hl : t.loop = none) :
      Moves hwconc rounds vals s (.enter p) (s.enter p t)
  | body {p : ℕ} {t : Task} {last it : BpIterator} (ht : s.task p = some t)
      (hl : t.loop = some (last, it)) (hne : it.eq last = false) :
      Moves hwconc rounds vals s (.body p) (s.body vals p t last it)
  | reattach {p : ℕ} {t : Task} {last it : BpIterator} (ht : s.task p = some t)
      (hl : t.loop = some (last, it)) (heq : it.eq last = true) :
      Moves hwconc rounds vals s (.reattach p) (s.reattach rounds p t)

variable [Mul T] {hwconc rounds : ℕ} {vals : ℕ → T} {s t : Pipeline T} {act : PipeAct}

theorem moves_of_step (h : (pipeline hwconc rounds vals).step s act = some t) :
    s.stopped = none ∧ Moves hwconc rounds vals s act t := by
  unfold pipeline at h
  dsimp only at h
  split at h
  · cases h
  next hgo =>
  refine ⟨by simpa using hgo, ?_⟩
  cases act with
  | call =>
    cases h
    exact .call
  | detach p =>
    dsimp only at h
    split at h
    · next hd =>
      cases h
      exact .detach hd.1 (by simpa using hd.2.1) hd.2.2
    · cases h
  | enter p =>
    obtain ⟨t₁, ht, h⟩ := Option.bind_eq_some_iff.1 h
    obtain ⟨hl, h⟩ := Option.ite_none_right_eq_some.1 h
    cases h
    exact .enter ht (by simpa using hl)
  | body p =>
    obtain ⟨t₁, ht, h⟩ := Option.bind_eq_some_iff.1 h
    obtain ⟨⟨last, it⟩, hl, h⟩ := Option.bind_eq_some_iff.1 h
    obtain ⟨hne, h⟩ := Option.ite_none_right_eq_some.1 h
    cases h
    exact .body ht hl (by simpa using hne)
  | reattach p =>
    obtain ⟨t₁, ht, h⟩ := Option.bind_eq_some_iff.1 h
    obtain ⟨⟨last, it⟩, hl, h⟩ := Option.bind_eq_some_iff.1 h
    obtain ⟨heq, h⟩ := Option.ite_none_right_eq_some.1 h
    cases h
    exact .reattach ht hl heq

/-! ## The vectors there are -/

/-- What holds on to a trie. -/
inductive View
  | data (k : ℕ)
  | splt (p : ℕ)
  | used (k p : ℕ)
deriving DecidableEq

/-- It is written under an id of its own. -/
def View.Writes : View → Prop
  | .used _ _ => False
  | _ => True

/-- Worker `p` has detached from the `k`-th vector. -/
def Detached (s : Pipeline T) (k p : ℕ) : Prop :=
  k < s.done p ∨ k = s.done p ∧ (s.task p).isSome

instance (s : Pipeline T) (k p : ℕ) : Decidable (s.Detached k p) :=
  inferInstanceAs (Decidable (_ ∨ _))

/-- The vectors there are. -/
def view (s : Pipeline T) : View → Option BpVector
  | .data k => if k ≤ s.calls then some (s.data k) else none
  | .splt p => (s.task p).map Task.splt
  | .used k p => if s.Detached k p then some (s.used k p) else none

/-- The first has no node that carries the id of the second. A result may
have some of its source's, as long as no worker has detached from that. -/
def Parted (s : Pipeline T) : View → View → Prop
  | _, .used _ _ => False
  | .data j, .data i => j < i ∨ i < j ∧ ∃ p, s.Detached i p
  | .splt p, .splt q => p ≠ q
  | _, _ => True

/-- **What keeps the vectors apart**: ids that are drawn once, and nodes
that carry them where they may. -/
structure Isolated (s : Pipeline T) : Prop where
  closed : Closed (fun _ => True) s.heap
  root_lt : ∀ V v, s.view V = some v → v.root < s.heap.next
  heap_ids : ∀ a < s.heap.next, (s.heap.cell a).id.toNat < s.unique
  ids : ∀ V v, V.Writes → s.view V = some v → v.id.toNat < s.unique
  ids_inj : ∀ V W v w, V.Writes → W.Writes → s.view V = some v → s.view W = some w →
    v.id = w.id → V = W
  foreign : ∀ V W v w, s.view V = some v → s.view W = some w → s.Parted V W →
    Foreign s.heap v.root w.id
  done_le : ∀ p, s.done p ≤ s.calls
  done_lt : ∀ p, (s.task p).isSome → s.done p < s.calls

end Pipeline

/-! ## Writing under one id -/

section

variable {h h' : Heap T} {v v' o : BpVector} {r a : Addr} {id : Id}

/-- Edits within a set are edits within a larger one. -/
theorem Edits.widen {base : ℕ} {cp : Id → Bool} {N : Id → Prop} {S R : Addr → Prop}
    (hS : ∀ a, S a → R a) (e : Edits base cp N S h h') : Edits base cp N R h h' := by
  induction e with
  | refl => exact .refl
  | alloc nd _ hN hnd ih =>
    exact ih.alloc nd hN fun c k b hu hk => ⟨hS b (hnd c k b hu hk).1, (hnd c k b hu hk).2⟩
  | setChild _ hw ha hb he ih =>
    exact ih.setChild hw (hS _ ha) (fun b hb' => ⟨hS b (hb b hb').1, (hb b hb').2⟩) he
  | setLeaf _ hw ha he ih => exact ih.setLeaf hw (hS _ ha) he

/-- **A vector has been written** with nodes of its own and of `o`, under
its id. -/
abbrev WrittenFrom (h h' : Heap T) (v o v' : BpVector) : Prop :=
  Rewritten h.next (nodeCopy .tr v.id) (fun other => other = v.id)
    (fun a => (Reach h v.root a ∨ Reach h o.root a) ∨ h.next ≤ a) h h' v v'

/-- What two vectors reach is closed, and so is it with a third. -/
theorem Closed.reaches {S : Addr → Prop} (hC : Closed (fun _ => True) h)
    (hS : ∀ a, S a → a < h.next → ∀ c k b, (h.cell a).u = .branches c → c k = some b → S b) :
    Scope h.next (fun a => S a ∨ h.next ≤ a) h where
  base_le := le_rfl
  new _ ha := .inr ha
  closed a ha hSa c k b hu hk := by
    rcases hSa with hSa | hnew
    · exact ⟨.inl (hS a hSa ha c k b hu hk), (hC a ha trivial c k b hu hk).2⟩
    · exact absurd ha (Nat.not_lt.2 hnew)

/-- **A vector with no node of the id is as it was**, node by node. -/
theorem Foreign.unwritten (hf : Foreign h r v.id) (hC : Closed (fun _ => True) h) (hr : r < h.next)
    (w : WrittenFrom h h' v o v') (ha : Reach h r a) : h'.cell a = h.cell a := by
  have hlt := (hC.reach trivial hr ha).2
  exact w.edits.cell_eq hlt hlt (by simpa [nodeCopy] using (hf a ha).symm)

/-- **What no vector in question has, none has afterwards**: a node of
another id is not made. -/
theorem Foreign.written (hC : Closed (fun _ => True) h) (hv : Foreign h v.root id)
    (ho : Foreign h o.root id) (hr : Foreign h r id)
    (hrlt : r < h.next) (hne : v.id ≠ id) (w : WrittenFrom h h' v o v') :
    Foreign h' r id ∧ Foreign h' v'.root id := by
  have e := w.edits.widen (R := fun a =>
    (Reach h v.root a ∨ Reach h o.root a ∨ Reach h r a) ∨ h.next ≤ a) fun a ha => by tauto
  have hS := hC.reaches (S := fun a => Reach h v.root a ∨ Reach h o.root a ∨ Reach h r a)
    fun a ha _ c k b hu hk => by
      rcases ha with ha | ha | ha
      · exact .inl (ha.child hu hk)
      · exact .inr (.inl (ha.child hu hk))
      · exact .inr (.inr (ha.child hu hk))
  have hS' := hS.edits e
  -- a node that is reached now was reached before, or is new
  have hall : ∀ q, (Reach h v.root q ∨ Reach h o.root q ∨ Reach h r q) ∨ h.next ≤ q →
      q < h'.next → Foreign h' q id := by
    intro q hq hqlt a ha
    obtain ⟨hSa, halt⟩ := hS'.closed.reach hq hqlt ha
    rcases Nat.lt_or_ge a h.next with hold | hnew
    · rw [e.id_eq hold]
      rcases hSa with (ha | ha | ha) | hge
      · exact hv a ha
      · exact ho a ha
      · exact hr a ha
      · omega
    · rw [e.new_id hnew halt]
      exact hne
  exact ⟨hall r (.inl (.inr (.inr .root))) (lt_of_lt_of_le hrlt e.next_le),
    hall v'.root (by have := w.root_mem; tauto) w.root_lt⟩

end

namespace Pipeline

variable {s t : Pipeline T} {v v' o : BpVector} {V O : View} {hwconc k : ℕ}

theorem not_parted_self (V : View) : ¬ s.Parted V V := by
  cases V with
  | data k => simp [Parted]
  | splt p => simp [Parted]
  | used k p => simp [Parted]

theorem Parted.writes {W : View} (hp : s.Parted V W) : W.Writes := by
  cases W with
  | used k p => cases V <;> exact hp.elim
  | _ => trivial

/-- A splinter is parted from all others. -/
theorem parted_splt {p : ℕ} (hV : V ≠ .splt p) : s.Parted V (.splt p) := by
  cases V with
  | data k => trivial
  | splt q => exact fun h => hV (by rw [h])
  | used k q => trivial

/-- **Who is parted from what is written** is left alone. -/
theorem Isolated.unwritten {U : View} {u : BpVector} {h : Heap T} {a : Addr} (hI : s.Isolated)
    (hV : s.view V = some v) (hU : s.view U = some u) (hp : s.Parted U V)
    (w : WrittenFrom s.heap h v o v') (ha : Reach s.heap u.root a) : h.cell a = s.heap.cell a :=
  (hI.foreign U V u v hU hV hp).unwritten hI.closed (hI.root_lt U u hU) w ha

/-- **One vector is written**, with nodes of its own and of `o`. Whoever is
not parted from it must, like it and `o`, be parted from the others. -/
theorem Isolated.write (hI : s.Isolated) (hV : s.view V = some v) (hO : s.view O = some o)
    (hwrites : V.Writes) (w : WrittenFrom s.heap t.heap v o v') (hunique : t.unique = s.unique)
    (hview : ∀ U u, t.view U = some u → U = V ∧ u = v' ∨ U ≠ V ∧ s.view U = some u)
    (hparted : ∀ U W, t.Parted U W → s.Parted U W)
    (hclear : ∀ U W u x, t.view U = some u → t.view W = some x → W ≠ V → s.Parted U W →
      ¬ s.Parted U V → s.Parted V W ∧ s.Parted O W)
    (hle : ∀ p, t.done p ≤ t.calls) (hlt : ∀ p, (t.task p).isSome → t.done p < t.calls) :
    t.Isolated := by
  have hid : v'.id = v.id := w.id_eq
  -- a vector of the new state had its id in the old one
  have hold : ∀ U u, t.view U = some u → ∃ u₀, s.view U = some u₀ ∧ u₀.id = u.id := by
    intro U u hu
    rcases hview U u hu with ⟨rfl, rfl⟩ | ⟨-, hu⟩
    · exact ⟨v, hV, hid.symm⟩
    · exact ⟨u, hu, rfl⟩
  refine ⟨(w.edits.widen fun _ _ => trivial).closed hI.closed, ?_, ?_, ?_, ?_, ?_, hle, hlt⟩
  · intro U u hu
    rcases hview U u hu with ⟨-, rfl⟩ | ⟨-, hu⟩
    · exact w.root_lt
    · exact lt_of_lt_of_le (hI.root_lt U u hu) w.edits.next_le
  · intro a ha
    rw [hunique]
    rcases Nat.lt_or_ge a s.heap.next with hlt | hge
    · rw [w.edits.id_eq hlt]
      exact hI.heap_ids a hlt
    · rw [w.edits.new_id hge ha]
      exact hI.ids V v hwrites hV
  · intro U u hU hu
    obtain ⟨u₀, hu₀, hid₀⟩ := hold U u hu
    rw [hunique, ← hid₀]
    exact hI.ids U u₀ hU hu₀
  · intro U W u x hU hW hu hx heq
    obtain ⟨u₀, hu₀, hidu⟩ := hold U u hu
    obtain ⟨x₀, hx₀, hidx⟩ := hold W x hx
    exact hI.ids_inj U W u₀ x₀ hU hW hu₀ hx₀ (by rw [hidu, hidx, heq])
  · intro U W u x hu hx hp
    have hps := hparted U W hp
    have hW : W.Writes := hps.writes
    obtain ⟨x₀, hx₀, hidx⟩ := hold W x hx
    rw [← hidx]
    by_cases hWV : W = V
    · -- whoever is parted from the writer is left alone
      subst hWV
      rcases hview U u hu with ⟨rfl, -⟩ | ⟨-, hu⟩
      · exact absurd hps (not_parted_self U)
      · rw [hV] at hx₀
        cases hx₀
        exact (hI.foreign U W u v hu hV hps).of_cells fun d hd => hI.unwritten hV hu hps w hd
    · have hne : v.id ≠ x₀.id := fun heq =>
        hWV (hI.ids_inj W V x₀ v hW hwrites hx₀ hV heq.symm)
      by_cases hUV : s.Parted U V
      · rcases hview U u hu with ⟨rfl, -⟩ | ⟨-, hu⟩
        · exact absurd hUV (not_parted_self U)
        · exact (hI.foreign U W u x₀ hu hx₀ hps).of_cells fun d hd =>
            hI.unwritten hV hu hUV w hd
      · obtain ⟨hVW, hOW⟩ := hclear U W u x hu hx hWV hps hUV
        have hv := hI.foreign V W v x₀ hV hx₀ hVW
        have ho := hI.foreign O W o x₀ hO hx₀ hOW
        rcases hview U u hu with ⟨-, rfl⟩ | ⟨-, hu⟩
        · exact (Foreign.written hI.closed hv ho hv (hI.root_lt V v hV) hne w).2
        · exact (Foreign.written hI.closed hv ho (hI.foreign U W u x₀ hu hx₀ hps)
            (hI.root_lt U u hu) hne w).1

omit K in
theorem toNat_uniqueId {n : ℕ} (hn : n < 2 ^ 32) : (uniqueId n).toNat = n := by
  rw [uniqueId, BitVec.toNat_ofNat, Nat.mod_eq_of_lt hn]

/-- **Vectors take new names.** One that is new, or has a new id, stands on
the trie of one that was there, and is parted from the others as that was. -/
theorem Isolated.renamed (hI : s.Isolated) (hheap : t.heap = s.heap) (hunique : s.unique ≤ t.unique)
    (hview : ∀ U u, t.view U = some u → ∃ U₀ u₀, s.view U₀ = some u₀ ∧ u₀.root = u.root ∧
      ∀ W x, t.view W = some x → s.view W = some x → t.Parted U W → s.Parted U₀ W)
    (hids : ∀ W x, W.Writes → t.view W = some x →
      s.view W = some x ∨ s.unique ≤ x.id.toNat ∧ x.id.toNat < t.unique)
    (hnew : ∀ U W u x, U.Writes → W.Writes → t.view U = some u → t.view W = some x →
      s.unique ≤ u.id.toNat → u.id = x.id → U = W)
    (hle : ∀ p, t.done p ≤ t.calls) (hlt : ∀ p, (t.task p).isSome → t.done p < t.calls) :
    t.Isolated := by
  refine ⟨by rw [hheap]; exact hI.closed, ?_, ?_, ?_, ?_, ?_, hle, hlt⟩
  · intro U u hu
    obtain ⟨U₀, u₀, hu₀, hroot, -⟩ := hview U u hu
    rw [hheap, ← hroot]
    exact hI.root_lt U₀ u₀ hu₀
  · intro a ha
    rw [hheap] at ha ⊢
    exact lt_of_lt_of_le (hI.heap_ids a ha) hunique
  · intro U u hU hu
    rcases hids U u hU hu with hold | hfresh
    · exact lt_of_lt_of_le (hI.ids U u hU hold) hunique
    · exact hfresh.2
  · intro U W u x hU hW hu hx heq
    rcases hids U u hU hu with hold | hfresh
    · rcases hids W x hW hx with hold' | hfresh'
      · exact hI.ids_inj U W u x hU hW hold hold' heq
      · exact (hnew W U x u hW hU hx hu hfresh'.1 heq.symm).symm
    · exact hnew U W u x hU hW hu hx hfresh.1 heq
  · intro U W u x hu hx hp
    obtain ⟨U₀, u₀, hu₀, hroot, hparted⟩ := hview U u hu
    rw [hheap, ← hroot]
    rcases hids W x hp.writes hx with hold | hfresh
    · exact hI.foreign U₀ W u₀ x hu₀ hold (hparted W x hx hold hp)
    · -- no node has an id that has not been drawn
      intro a ha heq
      have hlt := hI.heap_ids a (hI.closed.reach trivial (hI.root_lt U₀ u₀ hu₀) ha).2
      rw [heq] at hlt
      omega

theorem view_data {k : ℕ} : s.view (.data k) = some v ↔ k ≤ s.calls ∧ s.data k = v := by
  simp [view]

theorem view_splt {p : ℕ} : s.view (.splt p) = some v ↔ ∃ t, s.task p = some t ∧ t.splt = v := by
  simp [view]

theorem view_used {k p : ℕ} :
    s.view (.used k p) = some v ↔ s.Detached k p ∧ s.used k p = v := by
  simp [view]

/-- A worker detaches from vectors that are there, and have been called. -/
theorem Isolated.lt_calls {k p : ℕ} (hI : s.Isolated) (h : s.Detached k p) : k < s.calls := by
  rcases h with hlt | ⟨rfl, ht⟩
  · exact lt_of_lt_of_le hlt (hI.done_le p)
  · exact hI.done_lt p ht

/-! ## Calls and detaches -/

/-- What there is after a call. -/
theorem view_call {U : View} (hu : s.call.view U = some v) :
    s.view U = some v ∨ U = .data (s.calls + 1) ∧
      v = Tr.withId (s.data s.calls) (uniqueId s.unique) := by
  cases U with
  | data k =>
    obtain ⟨hk, rfl⟩ := view_data.1 hu
    by_cases hlast : k = s.calls + 1
    · subst hlast
      exact .inr ⟨rfl, Function.update_self ..⟩
    · refine .inl (view_data.2 ⟨?_, (Function.update_of_ne hlast ..).symm⟩)
      have hk' : k ≤ s.calls + 1 := hk
      omega
  | splt p => exact .inl hu
  | used k p => exact .inl hu

/-- **A call** adds a vector, on the trie of the last one. -/
theorem Isolated.call (hI : s.Isolated) (hids : s.unique + 1 ≤ 2 ^ 32) : s.call.Isolated := by
  have hid : (uniqueId s.unique).toNat = s.unique := toNat_uniqueId (by omega)
  have hfresh : ∀ U u, U.Writes → s.call.view U = some u → s.unique ≤ u.id.toNat →
      U = .data (s.calls + 1) := by
    intro U u hU hu hge
    rcases view_call hu with hold | ⟨rfl, -⟩
    · have := hI.ids U u hU hold
      omega
    · rfl
  refine hI.renamed rfl (Nat.le_succ _) ?_ ?_ ?_ ?_ ?_
  · intro U u hu
    rcases view_call hu with hold | ⟨rfl, rfl⟩
    · exact ⟨U, u, hold, rfl, fun W x _ _ hp => hp⟩
    · refine ⟨.data s.calls, s.data s.calls, view_data.2 ⟨le_rfl, rfl⟩, rfl, ?_⟩
      intro W x _ hx hp
      cases W with
      | data i =>
        have hi := (view_data.1 hx).1
        rcases hp with hlt | ⟨-, p, hp⟩
        · omega
        · exact .inr ⟨hI.lt_calls hp, p, hp⟩
      | splt p => trivial
      | used k p => exact hp.elim
  · intro W x hW hx
    rcases view_call hx with hold | ⟨-, rfl⟩
    · exact .inl hold
    · refine .inr ⟨hid.ge, ?_⟩
      change (uniqueId s.unique).toNat < s.unique + 1
      omega
  · intro U W u x hU hW hu hx hge heq
    rw [hfresh U u hU hu hge, hfresh W x hW hx (by rw [← heq]; exact hge)]
  · exact fun p => Nat.le_succ_of_le (hI.done_le p)
  · exact fun p hp => Nat.lt_succ_of_lt (hI.done_lt p hp)

/-- What there is once worker `p` has detached. -/
theorem view_detach {p : ℕ} {U : View} (hnone : s.task p = none)
    (hu : (s.detach hwconc p).view U = some v) :
    s.view U = some v ∧ U ≠ .data (s.done p) ∧ U ≠ .splt p ∨
      U = .data (s.done p) ∧ v = Tr.withId (s.data (s.done p)) (uniqueId s.unique) ∨
      U = .splt p ∧ v = Tr.withId (s.data (s.done p)) (uniqueId (s.unique + 1)) ∨
      U = .used (s.done p) p ∧ v = s.data (s.done p) := by
  cases U with
  | data k =>
    obtain ⟨hk, rfl⟩ := view_data.1 hu
    by_cases hkj : k = s.done p
    · subst hkj
      exact .inr (.inl ⟨rfl, Function.update_self ..⟩)
    · refine .inl ⟨view_data.2 ⟨hk, (Function.update_of_ne hkj ..).symm⟩, ?_, fun h => by cases h⟩
      exact fun h => hkj (by cases h; rfl)
  | splt q =>
    obtain ⟨t, ht, rfl⟩ := view_splt.1 hu
    by_cases hqp : q = p
    · subst hqp
      rw [detach] at ht
      simp only [Function.update_self, Option.some.injEq] at ht
      subst ht
      exact .inr (.inr (.inl ⟨rfl, rfl⟩))
    · refine .inl ⟨view_splt.2 ⟨t, ?_, rfl⟩, fun h => (by cases h), ?_⟩
      · rw [← ht]
        exact (Function.update_of_ne hqp ..).symm
      · exact fun h => hqp (by cases h; rfl)
  | used k q =>
    obtain ⟨hd, rfl⟩ := view_used.1 hu
    by_cases hqp : q = p
    · subst hqp
      by_cases hkj : k = s.done q
      · subst hkj
        refine .inr (.inr (.inr ⟨rfl, ?_⟩))
        simp [detach]
      · refine .inl ⟨view_used.2 ⟨?_, by simp [detach, hkj]⟩, fun h => (by cases h),
          fun h => by cases h⟩
        rcases hd with hlt | ⟨heq, -⟩
        · exact .inl hlt
        · exact absurd heq hkj
    · refine .inl ⟨view_used.2 ⟨?_, ?_⟩, fun h => (by cases h), fun h => by cases h⟩
      · simpa [Detached, detach, hqp] using hd
      · by_cases hkj : k = s.done p
        · subst hkj
          simp [detach, hqp]
        · simp [detach, hkj]

theorem detached_detach {k p q : ℕ} (h : (s.detach hwconc p).Detached k q) :
    s.Detached k q ∨ k = s.done p ∧ q = p := by
  rcases h with hlt | ⟨rfl, ht⟩
  · exact .inl (.inl hlt)
  · by_cases hqp : q = p
    · subst hqp
      exact .inr ⟨rfl, rfl⟩
    · refine .inl (.inr ⟨rfl, ?_⟩)
      simpa [detach, hqp] using ht

/-- A vector that is not renamed by a detach is parted as it was. -/
theorem parted_of_detach {p : ℕ} {W : View} (hp : (s.detach hwconc p).Parted V W)
    (hW : W ≠ .data (s.done p)) : s.Parted V W := by
  cases W with
  | data i =>
    cases V with
    | data k =>
      rcases hp with hlt | ⟨hlt, q, hq⟩
      · exact .inl hlt
      · rcases detached_detach hq with hold | ⟨rfl, -⟩
        · exact .inr ⟨hlt, q, hold⟩
        · exact absurd rfl hW
    | splt q => trivial
    | used k q => trivial
  | splt q => cases V <;> exact hp
  | used k q => exact hp.elim

/-- **A detach** leaves a trie to three: to the vector, under a new id; to
the splinter; and to what is kept in `_used`. -/
theorem Isolated.detach {p : ℕ} (hI : s.Isolated) (hids : s.unique + 2 ≤ 2 ^ 32)
    (hnone : s.task p = none) (hlt : s.done p < s.calls) : (s.detach hwconc p).Isolated := by
  have hid : (uniqueId s.unique).toNat = s.unique := toNat_uniqueId (by omega)
  have hid' : (uniqueId (s.unique + 1)).toNat = s.unique + 1 := toNat_uniqueId (by omega)
  have hj : s.view (.data (s.done p)) = some (s.data (s.done p)) :=
    view_data.2 ⟨hlt.le, rfl⟩
  -- whoever stands on its trie now is parted from those that are not renamed
  have hparted : ∀ U W x, U = .data (s.done p) ∨ U = .splt p ∨ U = .used (s.done p) p →
      W ≠ .data (s.done p) → s.view W = some x → (s.detach hwconc p).Parted U W →
      s.Parted (.data (s.done p)) W := by
    intro U W x hU hW hx hp
    cases W with
    | data i =>
      rcases hU with rfl | rfl | rfl
      · exact parted_of_detach hp hW
      all_goals
        have hne : i ≠ s.done p := fun h => hW (by rw [h])
        rcases Nat.lt_or_ge (s.done p) i with h | h
        · exact .inl h
        · exact .inr ⟨by omega, p, .inl (by omega)⟩
    | splt q => trivial
    | used k q => rcases hU with rfl | rfl | rfl <;> exact hp.elim
  refine hI.renamed rfl (Nat.le_add_right _ 2) ?_ ?_ ?_ hI.done_le ?_
  · intro U u hu
    have hfresh : ∀ W x, (s.detach hwconc p).view W = some x → s.view W = some x →
        W.Writes → W ≠ .data (s.done p) := by
      rintro W x hx hx₀ hW rfl
      rcases view_detach hnone hx with ⟨-, hne, -⟩ | ⟨-, rfl⟩ | ⟨h, -⟩ | ⟨h, -⟩
      · exact hne rfl
      · have := hI.ids _ _ hW hx₀
        change (uniqueId s.unique).toNat < s.unique at this
        omega
      · cases h
      · cases h
    rcases view_detach hnone hu with ⟨hold, -, -⟩ | ⟨hU, rfl⟩ | ⟨hU, rfl⟩ | ⟨hU, rfl⟩
    · exact ⟨U, u, hold, rfl,
        fun W x hx hx₀ hp => parted_of_detach hp (hfresh W x hx hx₀ hp.writes)⟩
    · exact ⟨_, _, hj, rfl, fun W x hx hx₀ hp =>
        hparted U W x (.inl hU) (hfresh W x hx hx₀ hp.writes) hx₀ hp⟩
    · exact ⟨_, _, hj, rfl, fun W x hx hx₀ hp =>
        hparted U W x (.inr (.inl hU)) (hfresh W x hx hx₀ hp.writes) hx₀ hp⟩
    · exact ⟨_, _, hj, rfl, fun W x hx hx₀ hp =>
        hparted U W x (.inr (.inr hU)) (hfresh W x hx hx₀ hp.writes) hx₀ hp⟩
  · intro W x hW hx
    change s.view W = some x ∨ s.unique ≤ x.id.toNat ∧ x.id.toNat < s.unique + 2
    rcases view_detach hnone hx with ⟨hold, -, -⟩ | ⟨-, rfl⟩ | ⟨-, rfl⟩ | ⟨rfl, -⟩
    · exact .inl hold
    · right
      dsimp only [Tr.withId]
      omega
    · right
      dsimp only [Tr.withId]
      omega
    · exact hW.elim
  · intro U W u x hU hW hu hx hge heq
    have hnum : ∀ U u, U.Writes → (s.detach hwconc p).view U = some u → s.unique ≤ u.id.toNat →
        U = .data (s.done p) ∧ u.id.toNat = s.unique ∨
          U = .splt p ∧ u.id.toNat = s.unique + 1 := by
      intro U u hU hu hge
      rcases view_detach hnone hu with ⟨hold, -, -⟩ | ⟨h, rfl⟩ | ⟨h, rfl⟩ | ⟨rfl, -⟩
      · have := hI.ids U u hU hold
        omega
      · exact .inl ⟨h, hid⟩
      · exact .inr ⟨h, hid'⟩
      · exact hU.elim
    rcases hnum U u hU hu hge with ⟨rfl, hu'⟩ | ⟨rfl, hu'⟩ <;>
      rcases hnum W x hW hx (by rw [← heq]; exact hge) with ⟨rfl, hx'⟩ | ⟨rfl, hx'⟩
    · rfl
    · rw [heq] at hu'
      omega
    · rw [heq] at hu'
      omega
    · rfl
  · intro q hq
    by_cases hqp : q = p
    · subst hqp
      exact hlt
    · exact hI.done_lt q (by simpa [Pipeline.detach, hqp] using hq)

/-! ## Loops and reattaches -/

/-- The detaches say which vectors are parted. -/
theorem Parted.of_detached {U W : View} (h : ∀ k q, t.Detached k q → s.Detached k q)
    (hp : t.Parted U W) : s.Parted U W := by
  cases W with
  | data i =>
    cases U with
    | data k => exact hp.imp_right fun hd => ⟨hd.1, hd.2.imp fun q hq => h i q hq⟩
    | splt q => trivial
    | used k q => trivial
  | splt q => cases U <;> exact hp
  | used k q => exact hp.elim

/-- What there is after a step of a worker's loop. -/
theorem view_looped {p : ℕ} {t₁ t₂ : Task} {h : Heap T} {U : View} (ht : s.task p = some t₁)
    (hu : (s.looped h p t₂).view U = some v) :
    U = .splt p ∧ v = t₂.splt ∨ U ≠ .splt p ∧ s.view U = some v := by
  cases U with
  | data k => exact .inr ⟨fun h => (by cases h), hu⟩
  | splt q =>
    obtain ⟨t, htq, rfl⟩ := view_splt.1 hu
    unfold looped at htq
    dsimp only at htq
    by_cases hqp : q = p
    · subst hqp
      rw [Function.update_self] at htq
      cases htq
      exact .inl ⟨rfl, rfl⟩
    · rw [Function.update_of_ne hqp] at htq
      exact .inr ⟨fun h => hqp (by cases h; rfl), view_splt.2 ⟨t, htq, rfl⟩⟩
  | used k q =>
    obtain ⟨hd, rfl⟩ := view_used.1 hu
    refine .inr ⟨fun h => (by cases h), view_used.2 ⟨?_, rfl⟩⟩
    unfold Detached looped at hd
    dsimp only at hd
    by_cases hqp : q = p
    · subst hqp
      unfold Detached
      rw [ht]
      simpa using hd
    · rwa [Function.update_of_ne hqp] at hd

/-- A worker in its task has detached as before. -/
theorem detached_looped {p q : ℕ} {t₁ t₂ : Task} {h : Heap T} (ht : s.task p = some t₁)
    (hd : (s.looped h p t₂).Detached k q) : s.Detached k q := by
  have hu : (s.looped h p t₂).view (.used k q) = some ((s.looped h p t₂).used k q) :=
    view_used.2 ⟨hd, rfl⟩
  rcases view_looped ht hu with ⟨heq, -⟩ | ⟨-, hu⟩
  · cases heq
  · exact (view_used.1 hu).1

/-- **In its loop** a worker writes its splinter. -/
theorem Isolated.looped {p : ℕ} {t₁ t₂ : Task} {h : Heap T} (hI : s.Isolated)
    (ht : s.task p = some t₁) (w : WrittenFrom s.heap h t₁.splt t₁.splt t₂.splt) :
    (s.looped h p t₂).Isolated := by
  have hV : s.view (.splt p) = some t₁.splt := view_splt.2 ⟨t₁, ht, rfl⟩
  refine hI.write hV hV trivial w rfl (fun U u hu => view_looped ht hu)
    (fun U W hp => hp.of_detached fun k q hd => detached_looped ht hd) ?_ hI.done_le ?_
  · -- only the splinter is not parted from the splinter
    intro U W u x hu hx hW hp hn
    cases U with
    | data k => exact absurd trivial hn
    | splt q =>
      have hqp : q = p := by
        by_contra hne
        exact hn hne
      subst hqp
      exact ⟨hp, hp⟩
    | used k q => exact absurd trivial hn
  · intro q hq
    by_cases hqp : q = p
    · subst hqp
      exact hI.done_lt q (by rw [ht]; rfl)
    · exact hI.done_lt q (by simpa [Pipeline.looped, hqp] using hq)

/-- What there is after a reattach. -/
theorem view_reattached {p : ℕ} {t₁ : Task} {h : Heap T} {d : BpVector} {U : View}
    (ht : s.task p = some t₁) (hu : (s.reattached h p d).view U = some v) :
    U = .data (s.done p + 1) ∧ v = d ∨
      U ≠ .data (s.done p + 1) ∧ U ≠ .splt p ∧ s.view U = some v := by
  have hsome : (s.task p).isSome := by rw [ht]; rfl
  cases U with
  | data k =>
    obtain ⟨hk, rfl⟩ := view_data.1 hu
    unfold reattached at hk ⊢
    dsimp only at hk ⊢
    by_cases hkj : k = s.done p + 1
    · subst hkj
      exact .inl ⟨rfl, Function.update_self ..⟩
    · exact .inr ⟨fun h => hkj (by cases h; rfl), fun h => (by cases h),
        view_data.2 ⟨hk, (Function.update_of_ne hkj ..).symm⟩⟩
  | splt q =>
    obtain ⟨t, htq, rfl⟩ := view_splt.1 hu
    unfold reattached at htq
    dsimp only at htq
    by_cases hqp : q = p
    · subst hqp
      rw [Function.update_self] at htq
      cases htq
    · rw [Function.update_of_ne hqp] at htq
      exact .inr ⟨fun h => (by cases h), fun h => hqp (by cases h; rfl),
        view_splt.2 ⟨t, htq, rfl⟩⟩
  | used k q =>
    obtain ⟨hd, rfl⟩ := view_used.1 hu
    refine .inr ⟨fun h => (by cases h), fun h => (by cases h), view_used.2 ⟨?_, rfl⟩⟩
    unfold Detached reattached at hd
    dsimp only at hd
    by_cases hqp : q = p
    · subst hqp
      simp only [Function.update_self, Option.isSome_none, Bool.false_eq_true, and_false,
        or_false] at hd
      rcases Nat.lt_succ_iff_lt_or_eq.1 hd with hd | hd
      · exact .inl hd
      · exact .inr ⟨hd, hsome⟩
    · rwa [Function.update_of_ne hqp, Function.update_of_ne hqp] at hd

/-- A worker done with its task had detached before. -/
theorem detached_reattached {p q : ℕ} {t₁ : Task} {h : Heap T} {d : BpVector}
    (ht : s.task p = some t₁) (hd : (s.reattached h p d).Detached k q) : s.Detached k q := by
  have hu : (s.reattached h p d).view (.used k q) = some ((s.reattached h p d).used k q) :=
    view_used.2 ⟨hd, rfl⟩
  rcases view_reattached ht hu with ⟨heq, -⟩ | ⟨-, -, hu⟩
  · cases heq
  · exact (view_used.1 hu).1

/-- **A reattach** writes the result, with nodes of the splinter. A vector
that shares nodes with the result is one further on, of which there is
none by the time a worker has detached from the result. -/
theorem Isolated.reattached {p : ℕ} {t₁ : Task} {h : Heap T} {d : BpVector} (hI : s.Isolated)
    (ht : s.task p = some t₁)
    (w : WrittenFrom s.heap h (s.data (s.done p + 1)) t₁.splt d) :
    (s.reattached h p d).Isolated := by
  have hsome : (s.task p).isSome := by rw [ht]; rfl
  have hlt := hI.done_lt p hsome
  have hV : s.view (.data (s.done p + 1)) = some (s.data (s.done p + 1)) :=
    view_data.2 ⟨hlt, rfl⟩
  have hO : s.view (.splt p) = some t₁.splt := view_splt.2 ⟨t₁, ht, rfl⟩
  refine hI.write hV hO trivial w rfl ?_
    (fun U W hp => hp.of_detached fun k q hd => detached_reattached ht hd) ?_ ?_ ?_
  · intro U u hu
    rcases view_reattached ht hu with hres | ⟨hU, -, hold⟩
    · exact .inl hres
    · exact .inr ⟨hU, hold⟩
  · intro U W u x hu hx hW hp hn
    cases U with
    | splt q => exact absurd trivial hn
    | used k q => exact absurd trivial hn
    | data k =>
      cases W with
      | data i =>
        -- the worker has detached from all before the result
        have hi : i ≠ s.done p + 1 := fun h => hW (by rw [h])
        refine ⟨?_, trivial⟩
        rcases Nat.lt_or_ge (s.done p + 1) i with h | h
        · exact .inl h
        · refine .inr ⟨by omega, p, ?_⟩
          rcases Nat.lt_or_ge i (s.done p) with h' | h'
          · exact .inl h'
          · exact .inr ⟨by omega, hsome⟩
      | splt q =>
        refine ⟨trivial, ?_⟩
        rintro rfl
        -- the splinter is no more
        rcases view_reattached ht hx with ⟨heq, -⟩ | ⟨-, hne, -⟩
        · cases heq
        · exact hne rfl
      | used i q => exact hp.elim
  · intro q
    by_cases hqp : q = p
    · subst hqp
      simpa [Pipeline.reattached] using hlt
    · simpa [Pipeline.reattached, hqp] using hI.done_le q
  · intro q hq
    by_cases hqp : q = p
    · subst hqp
      simp [Pipeline.reattached] at hq
    · simpa [Pipeline.reattached, hqp] using hI.done_lt q (by
        simpa [Pipeline.reattached, hqp] using hq)

end Pipeline

end Contentious
