import StarCache.Foundation.MachineInt
import Mathlib.Data.List.AList

/-!
# The hash table of handles

Handles with one bucket are chained through `next_hash`. A place in a chain is named by the
link that leads to it, so that a handle is taken out or put in by one store to this link.
Out of fuel, or outside the 32 bits of the counters, a call has no outcome.
-/

namespace StarCache

open MachineInt

structure HandleTable (K : Type) where
  key : Nat → K
  hash : Nat → Nat
  nextHash : Nat → Option Nat
  length : Nat
  elems : Nat
  list : Nat → Option Nat

namespace HandleTable

variable {K : Type} [DecidableEq K]

/-- An `LRUHandle**`. -/
inductive Link
  | bucket (i : Nat)
  | next (e : Nat)

def bucketOf (length hash : Nat) : Nat := hash &&& (length - 1)

def load (t : HandleTable K) : Link → Option Nat
  | .bucket i => t.list i
  | .next e => t.nextHash e

def store (t : HandleTable K) (ptr : Link) (v : Option Nat) : HandleTable K :=
  match ptr with
  | .bucket i => { t with list := Function.update t.list i v }
  | .next e => { t with nextHash := Function.update t.nextHash e v }

/-- The loop of `_find_pointer`. -/
def findFrom (t : HandleTable K) (key : K) (hash : Nat) : Nat → Link → Option Link
  | 0, _ => none
  | fuel + 1, ptr =>
      match t.load ptr with
      | none => some ptr
      | some e =>
          if t.hash e ≠ hash ∨ key ≠ t.key e then t.findFrom key hash fuel (.next e) else some ptr

def findPointer (t : HandleTable K) (key : K) (hash : Nat) : Option Link :=
  t.findFrom key hash (t.elems + 1) (.bucket (bucketOf t.length hash))

def lookup (t : HandleTable K) (key : K) (hash : Nat) : Option (Option Nat) :=
  (t.findPointer key hash).map t.load

/-- The variables of `_resize`. -/
structure Relink where
  nextHash : Nat → Option Nat
  newList : Nat → Option Nat
  count : Nat

/-- The loop over one chain, which it takes apart from the front. -/
def relinkChain (t : HandleTable K) (newLength : Nat) : Nat → Option Nat → Relink → Option Relink
  | _, none, r => some r
  | 0, some _, _ => none
  | fuel + 1, some e, r =>
      let i := bucketOf newLength (t.hash e)
      t.relinkChain newLength fuel (r.nextHash e)
        { nextHash := Function.update r.nextHash e (r.newList i)
          newList := Function.update r.newList i (some e)
          count := u32 (r.count + 1) }

def relinkBuckets (t : HandleTable K) (newLength : Nat) (buckets : List Nat) (r : Relink) :
    Option Relink :=
  buckets.foldlM (fun r i => t.relinkChain newLength t.elems (t.list i) r) r

/-- The loop that doubles `new_length`. -/
def growLength (elems : Nat) : Nat → Nat → Option Nat
  | 0, _ => none
  | fuel + 1, length => if length < elems then growLength elems fuel (u32 (length * 2)) else some length

/-- `_resize`, when its memory is allocated. -/
def resize (t : HandleTable K) : Option (Bool × HandleTable K) :=
  match growLength t.elems 32 4 with
  | none => none
  | some newLength =>
      match t.relinkBuckets newLength (List.range t.length) ⟨t.nextHash, fun _ => none, 0⟩ with
      | none => none
      | some r =>
          if t.elems ≠ r.count then some (false, { t with nextHash := r.nextHash })
          else some (true, { t with nextHash := r.nextHash, list := r.newList, length := newLength })

def insert (t : HandleTable K) (e : Nat) : Option (Option Nat × HandleTable K) :=
  match t.findPointer (t.key e) (t.hash e) with
  | none => none
  | some ptr =>
      let old := t.load ptr
      let t := { t with nextHash := Function.update t.nextHash e (old.bind t.nextHash) }
      let t := t.store ptr (some e)
      match old with
      | some _ => some (old, t)
      | none =>
          let t := { t with elems := u32 (t.elems + 1) }
          -- a resize that fails makes the answer null, which it is in any case
          if t.length < t.elems then t.resize.map fun r => (none, r.2) else some (none, t)

def remove (t : HandleTable K) (key : K) (hash : Nat) : Option (Option Nat × HandleTable K) :=
  match t.findPointer key hash with
  | none => none
  | some ptr =>
      match t.load ptr with
      | none => some (none, t)
      | some e => some (some e, { t.store ptr (t.nextHash e) with elems := u32 (t.elems - 1) })

/-- The constructor. -/
def create [Inhabited K] : Option (HandleTable K) :=
  (resize ⟨fun _ => default, fun _ => 0, fun _ => none, 0, 0, fun _ => none⟩).map (·.2)

/-- The key and the hash a handle is made with. -/
def withHandle (t : HandleTable K) (e : Nat) (key : K) (hash : Nat) : HandleTable K :=
  { t with key := Function.update t.key e key, hash := Function.update t.hash e hash }

/-! ## Chains -/

/-- The handles that `next_hash` leads to. -/
def IsChain (next : Nat → Option Nat) : Option Nat → List Nat → Prop
  | start, [] => start = none
  | start, e :: rest => start = some e ∧ IsChain next (next e) rest

section Chain

variable {next next' : Nat → Option Nat} {start : Option Nat} {e : Nat} {c pre rest : List Nat}

/-- A chain does not depend on the handles outside of it. -/
theorem IsChain.congr (h : IsChain next start c) (hsame : ∀ x ∈ c, next' x = next x) :
    IsChain next' start c := by
  induction c generalizing start with
  | nil => exact h
  | cons x rest ih =>
      refine ⟨h.1, ?_⟩
      rw [hsame x List.mem_cons_self]
      exact ih h.2 fun y hy => hsame y (List.mem_cons_of_mem _ hy)

/-- A store to the `next_hash` of a handle of the chain. -/
theorem IsChain.relink {v : Option Nat} (h : IsChain next start (pre ++ e :: rest)) (hnot : e ∉ pre)
    (hnew : IsChain (Function.update next e v) v c) :
    IsChain (Function.update next e v) start (pre ++ e :: c) := by
  induction pre generalizing start with
  | nil =>
      refine ⟨h.1, ?_⟩
      rw [Function.update_self]
      exact hnew
  | cons x pre ih =>
      obtain ⟨hne, hnot⟩ := not_or.mp (mt List.mem_cons.mpr hnot)
      refine ⟨h.1, ?_⟩
      rw [Function.update_of_ne (Ne.symm hne)]
      exact ih h.2 hnot

theorem IsChain.drop (h : IsChain next start (pre ++ e :: rest)) : IsChain next (next e) rest := by
  induction pre generalizing start with
  | nil => exact h.2
  | cons x pre ih => exact ih h.2

/-- The link that the handles `pre` lead to. -/
def linkAfter (ptr : Link) (pre : List Nat) : Link :=
  match pre.getLast? with
  | none => ptr
  | some e => .next e

theorem linkAfter_cons (ptr : Link) (e : Nat) (pre : List Nat) :
    linkAfter ptr (e :: pre) = linkAfter (.next e) pre := by
  unfold linkAfter
  rw [List.getLast?_cons]
  cases pre.getLast? with
  | none => rfl
  | some _ => rfl

end Chain

section Find

variable {t : HandleTable K} {key : K} {hash : Nat}

def Matches (t : HandleTable K) (key : K) (hash e : Nat) : Prop := t.hash e = hash ∧ key = t.key e

/-- The search stops at the first handle that matches, or at the end of the chain. -/
theorem findFrom_spec {c : List Nat} {fuel : Nat} {ptr : Link}
    (h : IsChain t.nextHash (t.load ptr) c) (hfuel : c.length < fuel) :
    ∃ pre rest, c = pre ++ rest ∧ t.findFrom key hash fuel ptr = some (linkAfter ptr pre) ∧
      t.load (linkAfter ptr pre) = rest.head? ∧ (∀ x ∈ pre, ¬ t.Matches key hash x) ∧
      ∀ x, rest.head? = some x → t.Matches key hash x := by
  induction c generalizing fuel ptr with
  | nil =>
      cases fuel with
      | zero => exact absurd hfuel (Nat.not_lt_zero _)
      | succ fuel =>
          have hnone : t.load ptr = none := h
          refine ⟨[], [], rfl, ?_, hnone, by simp, by simp⟩
          unfold findFrom
          rw [hnone]
          rfl
  | cons e c ih =>
      cases fuel with
      | zero => exact absurd hfuel (Nat.not_lt_zero _)
      | succ fuel =>
          obtain ⟨hload, hchain⟩ := h
          by_cases hmatch : t.Matches key hash e
          · refine ⟨[], e :: c, rfl, ?_, hload, by simp, by simpa using hmatch⟩
            unfold findFrom
            rw [hload]
            dsimp only
            rw [if_neg]
            · rfl
            · intro hor
              exact hor.elim (fun hne => hne hmatch.1) fun hne => hne hmatch.2
          · obtain ⟨pre, rest, hsplit, hfind, hlink, hpre, hrest⟩ :=
              @ih fuel (.next e) hchain (Nat.lt_of_succ_lt_succ hfuel)
            refine ⟨e :: pre, rest, by rw [hsplit, List.cons_append], ?_, ?_, ?_, hrest⟩
            · unfold findFrom
              rw [hload]
              dsimp only
              rw [if_pos, hfind, linkAfter_cons]
              unfold Matches at hmatch
              exact not_and_or.mp hmatch
            · rw [linkAfter_cons, hlink]
            · intro x hx
              cases List.mem_cons.mp hx with
              | inl heq => exact heq ▸ hmatch
              | inr hmem => exact hpre x hmem

end Find

/-! ## The table as a map -/

/-- Every bucket is a chain of the handles that belong to it, and the handles are those of the map. -/
structure Rep (hash : K → Nat) (t : HandleTable K) (chains : Nat → List Nat)
    (m : AList fun _ : K => Nat) : Prop where
  chain : ∀ i < t.length, IsChain t.nextHash (t.list i) (chains i)
  nodup : ∀ i < t.length, (chains i).Nodup
  home : ∀ i < t.length, ∀ e ∈ chains i, bucketOf t.length (t.hash e) = i
  hashed : ∀ i < t.length, ∀ e ∈ chains i, t.hash e = hash (t.key e)
  entry : ∀ k e, m.lookup k = some e ↔ t.key e = k ∧ ∃ i < t.length, e ∈ chains i

theorem bucketOf_lt {length hash : Nat} (hpos : 0 < length) : bucketOf length hash < length := by
  have : hash &&& (length - 1) ≤ length - 1 := Nat.and_le_right
  unfold bucketOf
  omega

section Rep

variable {hash : K → Nat} {t : HandleTable K} {chains : Nat → List Nat}
  {m : AList fun _ : K => Nat}

theorem Rep.bucket (h : Rep hash t chains m) {i j e : Nat} (hi : i < t.length) (hj : j < t.length)
    (hei : e ∈ chains i) (hej : e ∈ chains j) : i = j := (h.home i hi e hei).symm.trans (h.home j hj e hej)

theorem Rep.nodup_all (h : Rep hash t chains m) : ((List.range t.length).flatMap chains).Nodup := by
  rw [List.nodup_flatMap]
  refine ⟨fun i hi => h.nodup i (List.mem_range.mp hi), ?_⟩
  have hrange := List.nodup_range (n := t.length)
  refine List.Pairwise.imp_of_mem ?_ hrange
  intro i j hi hj hne e hei hej
  exact hne (h.bucket (List.mem_range.mp hi) (List.mem_range.mp hj) hei hej)

/-- All handles, bucket by bucket, are those of the map. -/
theorem Rep.perm (h : Rep hash t chains m) :
    ((List.range t.length).flatMap chains).Perm (m.entries.map Sigma.snd) := by
  have hkeys : (m.entries.map Sigma.fst).Nodup := m.nodupKeys
  rw [List.perm_ext_iff_of_nodup]
  · intro e
    simp only [List.mem_flatMap, List.mem_range, List.mem_map]
    constructor
    · intro hmem
      exact ⟨⟨t.key e, e⟩, AList.mem_lookup_iff.mp ((h.entry _ e).mpr ⟨rfl, hmem⟩), rfl⟩
    · intro hentry
      obtain ⟨⟨k, e'⟩, hentry, heq⟩ := hentry
      cases heq
      exact ((h.entry k e').mp (AList.mem_lookup_iff.mpr hentry)).2
  · exact h.nodup_all
  · -- handles of different keys differ in their keys
    refine List.Nodup.map_on ?_ (List.Nodup.of_map _ hkeys)
    intro x hx y hy heq
    obtain ⟨k, e⟩ := x
    obtain ⟨k', e'⟩ := y
    cases heq
    have hk := ((h.entry k e).mp (AList.mem_lookup_iff.mpr hx)).1
    have hk' := ((h.entry k' e).mp (AList.mem_lookup_iff.mpr hy)).1
    rw [← hk, ← hk']

theorem Rep.length_le (h : Rep hash t chains m) {i : Nat} (hi : i < t.length) :
    (chains i).length ≤ m.keys.length := by
  have hsub : (chains i).Sublist ((List.range t.length).flatMap chains) :=
    List.sublist_flatten_of_mem (List.mem_map_of_mem (List.mem_range.mpr hi))
  have hle := hsub.length_le
  rw [h.perm.length_eq, List.length_map] at hle
  simpa [AList.keys, List.keys] using hle

/-- The search for a key ends at the link to the handle of the map. -/
theorem Rep.find (h : Rep hash t chains m) (hpos : 0 < t.length) (helems : t.elems = m.keys.length)
    (k : K) :
    ∃ pre rest, chains (bucketOf t.length (hash k)) = pre ++ rest ∧
      t.findPointer k (hash k) = some (linkAfter (.bucket (bucketOf t.length (hash k))) pre) ∧
      t.load (linkAfter (.bucket (bucketOf t.length (hash k))) pre) = rest.head? ∧
      rest.head? = m.lookup k := by
  have hi : bucketOf t.length (hash k) < t.length := bucketOf_lt hpos
  have hfuel : (chains (bucketOf t.length (hash k))).length < t.elems + 1 := by
    rw [helems]
    exact Nat.lt_succ_of_le (h.length_le hi)
  obtain ⟨pre, rest, hsplit, hfind, hload, hpre, hrest⟩ :=
    @findFrom_spec K _ t k (hash k) _ _ (.bucket (bucketOf t.length (hash k))) (h.chain _ hi) hfuel
  refine ⟨pre, rest, hsplit, hfind, hload, ?_⟩
  cases rest with
  | cons e rest =>
      have hmatch := hrest e rfl
      have hmem : e ∈ chains (bucketOf t.length (hash k)) := by
        rw [hsplit]
        exact List.mem_append_right _ List.mem_cons_self
      exact ((h.entry k e).mpr ⟨hmatch.2.symm, _, hi, hmem⟩).symm
  | nil =>
      symm
      rw [List.head?_nil, Option.eq_none_iff_forall_ne_some]
      intro e hlookup
      obtain ⟨hkey, i, hlt, hmem⟩ := (h.entry k e).mp hlookup
      have hhash := h.hashed i hlt e hmem
      rw [hkey] at hhash
      have hhome := h.home i hlt e hmem
      rw [hhash] at hhome
      rw [← hhome, hsplit, List.append_nil] at hmem
      exact hpre e hmem ⟨hhash, hkey.symm⟩

end Rep

theorem Rep.withHandle {hash : K → Nat} {t : HandleTable K} {chains : Nat → List Nat}
    {m : AList fun _ : K => Nat} (h : Rep hash t chains m) {e : Nat}
    (hfresh : ∀ i < t.length, e ∉ chains i) (k : K) :
    Rep hash (t.withHandle e k (hash k)) chains m := by
  have hother : ∀ i < t.length, ∀ x ∈ chains i, x ≠ e := by
    intro i hi x hx heq
    exact hfresh i hi (heq ▸ hx)
  have hkey : ∀ x, x ≠ e → (t.withHandle e k (hash k)).key x = t.key x := fun x hx =>
    Function.update_of_ne hx _ _
  have hhash : ∀ x, x ≠ e → (t.withHandle e k (hash k)).hash x = t.hash x := fun x hx =>
    Function.update_of_ne hx _ _
  refine ⟨h.chain, h.nodup, ?_, ?_, ?_⟩
  · intro i hi x hx
    rw [hhash x (hother i hi x hx)]
    exact h.home i hi x hx
  · intro i hi x hx
    rw [hhash x (hother i hi x hx), hkey x (hother i hi x hx)]
    exact h.hashed i hi x hx
  · intro k' x
    rw [h.entry]
    constructor
    · intro hx
      obtain ⟨hxk, i, hi, hx⟩ := hx
      exact ⟨(hkey x (hother i hi x hx)).trans hxk, i, hi, hx⟩
    · intro hx
      obtain ⟨hxk, i, hi, hx⟩ := hx
      exact ⟨(hkey x (hother i hi x hx)).symm.trans hxk, i, hi, hx⟩

theorem Rep.withElems {hash : K → Nat} {t : HandleTable K} {chains : Nat → List Nat}
    {m : AList fun _ : K => Nat} (h : Rep hash t chains m) (n : Nat) :
    Rep hash { t with elems := n } chains m :=
  ⟨h.chain, h.nodup, h.home, h.hashed, h.entry⟩

/-! ## One store -/

section Store

variable {t : HandleTable K} {i : Nat} {v : Option Nat} {pre rest c : List Nat}

/-- What a store to a link of a bucket leaves alone. -/
structure StoreFrame (t t' : HandleTable K) (i : Nat) (pre : List Nat) : Prop where
  key : t'.key = t.key
  hash : t'.hash = t.hash
  length : t'.length = t.length
  elems : t'.elems = t.elems
  list : ∀ j, j ≠ i → t'.list j = t.list j
  next : ∀ x, x ∉ pre → t'.nextHash x = t.nextHash x

omit [DecidableEq K] in
theorem store_frame : StoreFrame t (t.store (linkAfter (.bucket i) pre) v) i pre := by
  unfold linkAfter
  cases hlast : pre.getLast? with
  | none =>
      refine ⟨rfl, rfl, rfl, rfl, ?_, fun _ _ => rfl⟩
      intro j hj
      exact Function.update_of_ne hj _ _
  | some e =>
      have hmem : e ∈ pre := List.mem_of_getLast? hlast
      refine ⟨rfl, rfl, rfl, rfl, fun _ _ => rfl, ?_⟩
      intro x hx
      apply Function.update_of_ne
      intro heq
      exact hx (heq ▸ hmem)

omit [DecidableEq K] in
/-- The chain of the bucket ends with what the stored pointer leads to. -/
theorem store_chain (h : IsChain t.nextHash (t.list i) (pre ++ rest)) (hnodup : pre.Nodup)
    (hnew : IsChain t.nextHash v c) (hapart : ∀ x ∈ pre, x ∉ c) :
    IsChain (t.store (linkAfter (.bucket i) pre) v).nextHash
      ((t.store (linkAfter (.bucket i) pre) v).list i) (pre ++ c) := by
  cases List.eq_nil_or_concat pre with
  | inl hnil =>
      subst hnil
      have hlist : (t.store (linkAfter (.bucket i) []) v).list i = v := Function.update_self _ _ _
      rw [hlist]
      exact hnew
  | inr hlast =>
      obtain ⟨front, e, hpre⟩ := hlast
      rw [List.concat_eq_append] at hpre
      subst hpre
      have hlink : linkAfter (.bucket i) (front ++ [e]) = .next e := by
        unfold linkAfter
        rw [List.getLast?_append_cons]
        rfl
      have hnot : e ∉ front := by
        intro hmem
        rw [List.nodup_append] at hnodup
        exact hnodup.2.2 e hmem e (List.mem_singleton_self e) rfl
      rw [hlink, List.append_assoc]
      rw [List.append_assoc] at h
      apply IsChain.relink h hnot
      apply IsChain.congr hnew
      intro x hx
      apply Function.update_of_ne
      intro heq
      exact hapart e (List.mem_append_right _ (List.mem_singleton_self e)) (heq ▸ hx)

end Store

section Splice

theorem splice_apart {pre rest : List Nat} {x : Nat} (hnodup : (pre ++ rest).Nodup)
    (hhead : rest.head? = some x) : ¬ (x ∈ pre ∨ x ∈ rest.tail) := by
  cases rest with
  | nil => exact absurd hhead (Option.some_ne_none x).symm
  | cons y rest =>
      cases hhead
      intro hx
      rw [List.nodup_middle, List.nodup_cons, List.mem_append] at hnodup
      exact hnodup.1 hx

theorem mem_tail_of_ne {rest : List Nat} {x : Nat} (hx : x ∈ rest) (hne : rest.head? ≠ some x) :
    x ∈ rest.tail := by
  cases rest with
  | nil => exact hx
  | cons y rest =>
      cases List.mem_cons.mp hx with
      | inl heq => exact absurd (congrArg some heq.symm) hne
      | inr hx => exact hx

variable {hash : K → Nat} {t t' : HandleTable K} {chains : Nat → List Nat}
  {m m' : AList fun _ : K => Nat} {k : K} {e : Nat} {v : Option Nat} {pre rest : List Nat}

/-- The other handles of the bucket are those of other keys. -/
theorem Rep.mem_spliced (h : Rep hash t chains m) (hpos : 0 < t.length)
    (hsplit : chains (bucketOf t.length (hash k)) = pre ++ rest) (hhead : rest.head? = m.lookup k)
    {x : Nat} :
    x ∈ pre ++ (v.toList ++ rest.tail) ↔
      v = some x ∨ x ∈ chains (bucketOf t.length (hash k)) ∧ t.key x ≠ k := by
  have hlt : bucketOf t.length (hash k) < t.length := bucketOf_lt hpos
  have hnodup := h.nodup _ hlt
  rw [hsplit] at hnodup
  have hkey : x ∈ pre ∨ x ∈ rest.tail → t.key x ≠ k := by
    intro hx hxk
    have hall : x ∈ chains (bucketOf t.length (hash k)) := by
      rw [hsplit, List.mem_append]
      exact hx.imp_right List.mem_of_mem_tail
    have hfirst : rest.head? = some x := by
      rw [hhead]
      exact (h.entry k x).mpr ⟨hxk, _, hlt, hall⟩
    exact splice_apart hnodup hfirst hx
  rw [List.mem_append, List.mem_append, Option.mem_toList, hsplit, List.mem_append]
  constructor
  · intro hx
    rcases hx with hx | hx | hx
    · exact Or.inr ⟨Or.inl hx, hkey (Or.inl hx)⟩
    · exact Or.inl hx
    · exact Or.inr ⟨Or.inr (List.mem_of_mem_tail hx), hkey (Or.inr hx)⟩
  · intro hx
    rcases hx with hx | ⟨hx | hx, hne⟩
    · exact Or.inr (Or.inl hx)
    · exact Or.inl hx
    · refine Or.inr (Or.inr (mem_tail_of_ne hx fun hx => hne ?_))
      rw [hhead] at hx
      exact ((h.entry k x).mp hx).1

/-- Only the handle `v` is new, and only the handle of the key is gone. -/
theorem Rep.mem_update (h : Rep hash t chains m) (hpos : 0 < t.length)
    (hsplit : chains (bucketOf t.length (hash k)) = pre ++ rest) (hhead : rest.head? = m.lookup k)
    {j x : Nat} (hj : j < t.length) :
    x ∈ Function.update chains (bucketOf t.length (hash k)) (pre ++ (v.toList ++ rest.tail)) j ↔
      v = some x ∧ j = bucketOf t.length (hash k) ∨ x ∈ chains j ∧ t.key x ≠ k := by
  by_cases hji : j = bucketOf t.length (hash k)
  · subst hji
    rw [Function.update_self, h.mem_spliced hpos hsplit hhead]
    exact or_congr_left (and_iff_left rfl).symm
  · rw [Function.update_of_ne hji]
    have hkey : x ∈ chains j → t.key x ≠ k := by
      intro hx hxk
      have hhome := h.home j hj x hx
      rw [h.hashed j hj x hx, hxk] at hhome
      exact hji hhome.symm
    constructor
    · intro hx
      exact Or.inr ⟨hx, hkey hx⟩
    · intro hx
      exact (hx.resolve_left fun hx => hji hx.2).1

theorem Rep.nodup_update (h : Rep hash t chains m)
    (hsplit : chains (bucketOf t.length (hash k)) = pre ++ rest)
    (hfresh : ∀ e, v = some e → ∀ i < t.length, e ∉ chains i) {j : Nat} (hj : j < t.length) :
    (Function.update chains (bucketOf t.length (hash k)) (pre ++ (v.toList ++ rest.tail)) j).Nodup := by
  by_cases hji : j = bucketOf t.length (hash k)
  · subst hji
    have hnodup := h.nodup _ hj
    rw [hsplit] at hnodup
    have hsub := List.Sublist.append_left (List.tail_sublist rest) pre
    rw [Function.update_self]
    cases v with
    | none => exact hnodup.sublist hsub
    | some e =>
        have hgone : e ∉ pre ++ rest := hsplit ▸ hfresh e rfl _ hj
        apply (List.nodup_middle).mpr
        rw [List.nodup_cons]
        exact ⟨fun hin => hgone (hsub.subset hin), hnodup.sublist hsub⟩
  · rw [Function.update_of_ne hji]
    exact h.nodup j hj

/-- The place of a key in its bucket changes from the handle it had to the handle `v`. -/
theorem Rep.splice (h : Rep hash t chains m) (hpos : 0 < t.length)
    (hsplit : chains (bucketOf t.length (hash k)) = pre ++ rest) (hhead : rest.head? = m.lookup k)
    (hfresh : ∀ e, v = some e → t.key e = k ∧ t.hash e = hash k ∧ ∀ i < t.length, e ∉ chains i)
    (hchain : IsChain t'.nextHash (t'.list (bucketOf t.length (hash k)))
      (pre ++ (v.toList ++ rest.tail)))
    (hkey : t'.key = t.key) (hhash : t'.hash = t.hash) (hlength : t'.length = t.length)
    (hlist : ∀ j, j ≠ bucketOf t.length (hash k) → t'.list j = t.list j)
    (hnext : ∀ x, x ∉ pre → v ≠ some x → t'.nextHash x = t.nextHash x)
    (hself : m'.lookup k = v) (hother : ∀ k', k' ≠ k → m'.lookup k' = m.lookup k') :
    Rep hash t' (Function.update chains (bucketOf t.length (hash k)) (pre ++ (v.toList ++ rest.tail)))
      m' := by
  have hlt : bucketOf t.length (hash k) < t.length := bucketOf_lt hpos
  have hmem := fun {j x : Nat} => @Rep.mem_update K _ hash t chains m k v pre rest h hpos hsplit hhead j x
  refine ⟨?_, ?_, ?_, ?_, ?_⟩
  · intro j hj
    rw [hlength] at hj
    by_cases hji : j = bucketOf t.length (hash k)
    · subst hji
      rw [Function.update_self]
      exact hchain
    · rw [Function.update_of_ne hji, hlist j hji]
      apply IsChain.congr (h.chain j hj)
      intro x hx
      apply hnext
      · intro hpre
        exact hji (h.bucket hj hlt hx (hsplit ▸ List.mem_append_left _ hpre))
      · intro hv
        exact (hfresh x hv).2.2 j hj hx
  · intro j hj
    rw [hlength] at hj
    exact h.nodup_update hsplit (fun e he => (hfresh e he).2.2) hj
  · intro j hj x hx
    rw [hlength] at hj ⊢
    rw [hhash]
    rcases (hmem hj).mp hx with ⟨hv, hji⟩ | ⟨hx, _⟩
    · rw [hji, (hfresh x hv).2.1]
    · exact h.home j hj x hx
  · intro j hj x hx
    rw [hlength] at hj
    rw [hhash, hkey]
    rcases (hmem hj).mp hx with ⟨hv, _⟩ | ⟨hx, _⟩
    · rw [(hfresh x hv).1, (hfresh x hv).2.1]
    · exact h.hashed j hj x hx
  · intro k' x
    rw [hkey, hlength]
    by_cases hk : k' = k
    · subst hk
      rw [hself]
      constructor
      · intro hv
        exact ⟨(hfresh x hv).1, _, hlt, (hmem hlt).mpr (Or.inl ⟨hv, rfl⟩)⟩
      · intro hx
        obtain ⟨hxk, j, hj, hx⟩ := hx
        exact ((hmem hj).mp hx).elim And.left fun hx => absurd hxk hx.2
    · rw [hother k' hk, h.entry]
      apply and_congr_right
      intro hxk
      apply exists_congr
      intro j
      apply and_congr_right
      intro hj
      rw [hmem hj]
      constructor
      · intro hx
        exact Or.inr ⟨hx, fun hxk' => hk (hxk.symm.trans hxk')⟩
      · intro hx
        exact (hx.resolve_left fun hx => hk (hxk.symm.trans (hfresh x hx.1).1)).1

/-- The handle `e` takes the place of its key. It points past the handle it replaces before the
link points to it. -/
theorem Rep.put (h : Rep hash t chains m) (hpos : 0 < t.length) (hkey : t.key e = k)
    (hhash : t.hash e = hash k) (hout : ∀ i < t.length, e ∉ chains i)
    (hsplit : chains (bucketOf t.length (hash k)) = pre ++ rest) (hhead : rest.head? = m.lookup k) :
    ∃ chains', Rep hash
      (HandleTable.store
        { t with nextHash := Function.update t.nextHash e ((m.lookup k).bind t.nextHash) }
        (linkAfter (.bucket (bucketOf t.length (hash k))) pre) (some e))
      chains' (m.insert k e) := by
  have hlt : bucketOf t.length (hash k) < t.length := bucketOf_lt hpos
  have hchain := h.chain _ hlt
  have hnodup := h.nodup _ hlt
  have hnot := hout _ hlt
  rw [hsplit] at hchain hnodup hnot
  rw [List.nodup_append] at hnodup
  rw [List.mem_append, not_or] at hnot
  have hframe := @store_frame K
    { t with nextHash := Function.update t.nextHash e ((m.lookup k).bind t.nextHash) }
    (bucketOf t.length (hash k)) (some e) pre
  have hbefore : IsChain (Function.update t.nextHash e ((m.lookup k).bind t.nextHash))
      (t.list (bucketOf t.length (hash k))) (pre ++ rest) := by
    apply IsChain.congr hchain
    intro x hx
    apply Function.update_of_ne
    intro heq
    cases List.mem_append.mp hx with
    | inl hx => exact hnot.1 (heq ▸ hx)
    | inr hx => exact hnot.2 (heq ▸ hx)
  have hnext : IsChain (Function.update t.nextHash e ((m.lookup k).bind t.nextHash))
      (some e) (e :: rest.tail) := by
    refine ⟨rfl, ?_⟩
    rw [Function.update_self, ← hhead]
    cases rest with
    | nil => exact rfl
    | cons x tail =>
        apply IsChain.congr hchain.drop
        intro y hy
        apply Function.update_of_ne
        intro heq
        exact hnot.2 (heq ▸ List.mem_cons_of_mem _ hy)
  have hapart : ∀ x ∈ pre, x ∉ e :: rest.tail := by
    intro x hx hmem
    cases List.mem_cons.mp hmem with
    | inl heq => exact hnot.1 (heq ▸ hx)
    | inr hmem => exact hnodup.2.2 x hx x (List.mem_of_mem_tail hmem) rfl
  have hlink : ∀ x, some e = some x → t.key x = k ∧ t.hash x = hash k ∧
      ∀ i < t.length, x ∉ chains i := by
    intro x hx
    cases hx
    exact ⟨hkey, hhash, hout⟩
  refine ⟨_, h.splice hpos hsplit hhead hlink (store_chain hbefore hnodup.1 hnext hapart)
    hframe.key hframe.hash hframe.length hframe.list ?_
    (AList.lookup_insert m) fun _ hk => AList.lookup_insert_ne hk⟩
  intro x hx hne
  rw [show _ = _ from hframe.next x hx]
  exact Function.update_of_ne (fun heq => hne (congrArg some heq.symm)) _ _

/-- The link to the handle of the key points past it. -/
theorem Rep.takeOut {tail : List Nat} (h : Rep hash t chains m) (hpos : 0 < t.length)
    (hsplit : chains (bucketOf t.length (hash k)) = pre ++ e :: tail) (hlookup : m.lookup k = some e) :
    ∃ chains', Rep hash
      (t.store (linkAfter (.bucket (bucketOf t.length (hash k))) pre) (t.nextHash e))
      chains' (m.erase k) := by
  have hlt : bucketOf t.length (hash k) < t.length := bucketOf_lt hpos
  have hchain := h.chain _ hlt
  have hnodup := h.nodup _ hlt
  rw [hsplit] at hchain hnodup
  rw [List.nodup_append] at hnodup
  have hframe := @store_frame K t (bucketOf t.length (hash k)) (t.nextHash e) pre
  have hapart : ∀ x ∈ pre, x ∉ tail := fun x hx hmem =>
    hnodup.2.2 x hx x (List.mem_cons_of_mem _ hmem) rfl
  exact ⟨_, h.splice hpos hsplit hlookup.symm (fun _ hv => absurd hv (Option.some_ne_none _).symm)
    (store_chain hchain hnodup.1 hchain.drop hapart)
    hframe.key hframe.hash hframe.length hframe.list (fun x hx _ => hframe.next x hx)
    (AList.lookup_erase k m) fun _ hk => AList.lookup_erase_ne hk⟩

end Splice

/-! ## The rehashing -/

section Resize

variable {t : HandleTable K} {newLength : Nat} {done : List Nat} {r : Relink}

/-- The handles `done`, newest first, are in the new buckets; the others are as they were. -/
structure Relinked (t : HandleTable K) (newLength : Nat) (done : List Nat) (r : Relink) : Prop where
  chain : ∀ j < newLength,
    IsChain r.nextHash (r.newList j) (done.filter fun e => bucketOf newLength (t.hash e) = j)
  count : r.count = done.length
  rest : ∀ e, e ∉ done → r.nextHash e = t.nextHash e

omit [DecidableEq K] in
theorem Relinked.push (h : Relinked t newLength done r) {e : Nat} (he : e ∉ done)
    (hfew : done.length + 1 < 2 ^ 32) :
    Relinked t newLength (e :: done)
      { nextHash := Function.update r.nextHash e (r.newList (bucketOf newLength (t.hash e)))
        newList := Function.update r.newList (bucketOf newLength (t.hash e)) (some e)
        count := u32 (r.count + 1) } := by
  have hold : ∀ j < newLength,
      IsChain (Function.update r.nextHash e (r.newList (bucketOf newLength (t.hash e))))
        (r.newList j) (done.filter fun e => bucketOf newLength (t.hash e) = j) := by
    intro j hj
    apply IsChain.congr (h.chain j hj)
    intro x hx
    apply Function.update_of_ne
    intro heq
    exact he (heq ▸ (List.mem_filter.mp hx).1)
  refine ⟨?_, ?_, ?_⟩
  · intro j hj
    by_cases hslot : bucketOf newLength (t.hash e) = j
    · rw [List.filter_cons, if_pos (decide_eq_true hslot), hslot]
      dsimp only
      rw [Function.update_self]
      refine ⟨rfl, ?_⟩
      rw [Function.update_self, ← hslot]
      rw [← hslot] at hj
      exact hold _ hj
    · rw [List.filter_cons, if_neg fun h => hslot (of_decide_eq_true h)]
      dsimp only
      rw [Function.update_of_ne (Ne.symm hslot)]
      exact hold j hj
  · dsimp only
    rw [h.count, List.length_cons]
    exact u32_of_lt hfew
  · intro x hx
    obtain ⟨hne, hx⟩ := not_or.mp (mt List.mem_cons.mpr hx)
    dsimp only
    rw [Function.update_of_ne hne]
    exact h.rest x hx

omit [DecidableEq K] in
/-- A chain that is taken apart is moved to the new buckets from its front on. -/
theorem relinkChain_spec {c : List Nat} {fuel : Nat} {start : Option Nat}
    (h : Relinked t newLength done r) (hchain : IsChain t.nextHash start c) (hnodup : c.Nodup)
    (hapart : ∀ e ∈ c, e ∉ done) (hfuel : c.length ≤ fuel) (hfew : done.length + c.length < 2 ^ 32) :
    ∃ r', t.relinkChain newLength fuel start r = some r' ∧
      Relinked t newLength (c.reverse ++ done) r' := by
  induction c generalizing start fuel done r with
  | nil =>
      have hstart : start = none := hchain
      subst hstart
      refine ⟨r, ?_, h⟩
      unfold relinkChain
      rfl
  | cons e c ih =>
      obtain ⟨hstart, hchain⟩ := hchain
      subst hstart
      obtain ⟨hnot, hnodup⟩ := List.nodup_cons.mp hnodup
      have he : e ∉ done := hapart e List.mem_cons_self
      cases fuel with
      | zero => exact absurd hfuel (Nat.not_succ_le_zero _)
      | succ fuel =>
          rw [List.length_cons] at hfuel hfew
          have hpush := h.push he (by omega)
          have hnext : r.nextHash e = t.nextHash e := h.rest e he
          rw [← hnext] at hchain
          obtain ⟨r', hrun, hr'⟩ := @ih _ _ fuel (r.nextHash e) hpush (hnext ▸ hchain) hnodup
            (by
              intro x hx hmem
              cases List.mem_cons.mp hmem with
              | inl heq => exact hnot (heq ▸ hx)
              | inr hmem => exact hapart x (List.mem_cons_of_mem _ hx) hmem)
            (Nat.le_of_succ_le_succ hfuel) (by rw [List.length_cons]; omega)
          refine ⟨r', hrun, ?_⟩
          rw [List.reverse_cons, List.append_assoc]
          exact hr'

omit [DecidableEq K] in
theorem relinkBuckets_spec {chains : Nat → List Nat} {buckets : List Nat}
    (h : Relinked t newLength done r)
    (hchain : ∀ i ∈ buckets, IsChain t.nextHash (t.list i) (chains i))
    (hnodup : (buckets.flatMap chains).Nodup) (hapart : ∀ e ∈ buckets.flatMap chains, e ∉ done)
    (hfuel : ∀ i ∈ buckets, (chains i).length ≤ t.elems)
    (hfew : done.length + (buckets.flatMap chains).length < 2 ^ 32) :
    ∃ r', t.relinkBuckets newLength buckets r = some r' ∧
      Relinked t newLength ((buckets.flatMap chains).reverse ++ done) r' := by
  induction buckets generalizing done r with
  | nil => exact ⟨r, rfl, h⟩
  | cons i buckets ih =>
      rw [List.flatMap_cons] at hnodup hapart hfew
      rw [List.nodup_append] at hnodup
      rw [List.length_append] at hfew
      obtain ⟨hfirst, hrest, hdiff⟩ := hnodup
      obtain ⟨r₁, hrun₁, hr₁⟩ := relinkChain_spec h (hchain i List.mem_cons_self) hfirst
        (fun e he => hapart e (List.mem_append_left _ he)) (hfuel i List.mem_cons_self)
        (by omega)
      obtain ⟨r₂, hrun₂, hr₂⟩ := ih hr₁ (fun j hj => hchain j (List.mem_cons_of_mem _ hj)) hrest
        (by
          intro e he hmem
          cases List.mem_append.mp hmem with
          | inl hmem => exact hdiff e (List.mem_reverse.mp hmem) e he rfl
          | inr hmem => exact hapart e (List.mem_append_right _ he) hmem)
        (fun j hj => hfuel j (List.mem_cons_of_mem _ hj))
        (by rw [List.length_append, List.length_reverse]; omega)
      refine ⟨r₂, ?_, ?_⟩
      · unfold relinkBuckets
        rw [List.foldlM_cons, hrun₁]
        exact hrun₂
      · rw [List.flatMap_cons, List.reverse_append, List.append_assoc]
        exact hr₂

/-- The doubling ends at a power of two. -/
theorem growLength_spec {elems fuel n : Nat} (hn : n ≤ 31) (hfuel : 31 < n + fuel)
    (helems : elems ≤ 2 ^ 31) :
    ∃ n', growLength elems fuel (2 ^ n) = some (2 ^ n') ∧ elems ≤ 2 ^ n' := by
  induction fuel generalizing n with
  | zero => omega
  | succ fuel ih =>
      unfold growLength
      by_cases hlt : 2 ^ n < elems
      · have hless : n < 31 := by
          apply (Nat.pow_lt_pow_iff_right (a := 2) (by decide)).mp
          exact Nat.lt_of_lt_of_le hlt helems
        have hfit : 2 ^ n * 2 < 2 ^ 32 := by
          rw [← Nat.pow_succ]
          exact Nat.pow_lt_pow_right (by decide) (by omega)
        have hdouble : u32 ((2 ^ n : Nat) * 2) = 2 ^ (n + 1) := by
          rw [Nat.pow_succ]
          exact u32_of_lt hfit
        rw [if_pos hlt, hdouble]
        exact ih hless (by omega)
      · rw [if_neg hlt]
        exact ⟨n, rfl, Nat.le_of_not_lt hlt⟩

end Resize

/-! ## The calls refine the map -/

section Calls

variable {hash : K → Nat} {t : HandleTable K} {chains : Nat → List Nat}
  {m : AList fun _ : K => Nat} {k : K} {e : Nat}

/-- A table of at most `2 ^ 31` handles that holds the map `m`. -/
structure Represents (hash : K → Nat) (t : HandleTable K) (m : AList fun _ : K => Nat) : Prop where
  rep : ∃ chains, Rep hash t chains m
  size : t.elems = m.keys.length
  few : t.elems ≤ 2 ^ 31
  load_le : t.elems ≤ t.length
  power : ∃ n, t.length = 2 ^ n

theorem Represents.length_pos (h : Represents hash t m) : 0 < t.length := by
  obtain ⟨n, hn⟩ := h.power
  rw [hn]
  exact Nat.two_pow_pos n

/-- The rehashing keeps the handles and their number. -/
theorem resize_spec (h : Rep hash t chains m) (hsize : t.elems = m.keys.length)
    (hfew : t.elems ≤ 2 ^ 31) :
    ∃ t', t.resize = some (true, t') ∧ Represents hash t' m := by
  obtain ⟨n, hgrow, hroom⟩ := @growLength_spec t.elems 32 2 (by decide) (by decide) hfew
  have hentries : m.entries.length = t.elems := by
    rw [hsize]
    simp [AList.keys, List.keys]
  have hlength : ((List.range t.length).flatMap chains).length = t.elems := by
    rw [h.perm.length_eq, List.length_map, hentries]
  have hnodup : ((List.range t.length).flatMap chains).Nodup := h.nodup_all
  have hempty : Relinked t (2 ^ n) [] ⟨t.nextHash, fun _ => none, 0⟩ := by
    constructor
    · intro j _
      exact rfl
    · rfl
    · intro x _
      rfl
  obtain ⟨r, hrun, hr⟩ := @relinkBuckets_spec K t (2 ^ n) [] _ chains (List.range t.length) hempty
    (fun i hi => h.chain i (List.mem_range.mp hi)) hnodup (fun _ _ => List.not_mem_nil)
    (fun i hi => hsize ▸ h.length_le (List.mem_range.mp hi))
    (by
      rw [hlength]
      simp only [List.length_nil]
      omega)
  rw [List.append_nil] at hr
  have hcount : r.count = t.elems := by rw [hr.count, List.length_reverse, hlength]
  refine ⟨{ t with nextHash := r.nextHash, list := r.newList, length := 2 ^ n }, ?_, ?_⟩
  · unfold resize
    have hfour : growLength t.elems 32 4 = some (2 ^ n) := hgrow
    rw [hfour]
    dsimp only
    rw [hrun]
    dsimp only
    rw [if_neg (not_not.mpr hcount.symm)]
  · have hin : ∀ j e, e ∈ ((List.range t.length).flatMap chains).reverse.filter
        (fun e => bucketOf (2 ^ n) (t.hash e) = j) ↔
        (∃ i < t.length, e ∈ chains i) ∧ bucketOf (2 ^ n) (t.hash e) = j := by
      intro j e
      simp [List.mem_filter, List.mem_flatMap]
    refine ⟨⟨_, hr.chain, ?_, ?_, ?_, ?_⟩, hsize, hfew, hroom, n, rfl⟩
    · intro j _
      exact (List.nodup_reverse.mpr hnodup).filter _
    · intro j _ e he
      exact ((hin j e).mp he).2
    · intro j _ e he
      obtain ⟨i, hi, he⟩ := ((hin j e).mp he).1
      exact h.hashed i hi e he
    · intro k e
      rw [h.entry]
      apply and_congr_right
      intro _
      constructor
      · intro he
        exact ⟨_, bucketOf_lt (Nat.two_pow_pos n), (hin _ e).mpr ⟨he, rfl⟩⟩
      · intro he
        obtain ⟨j, _, he⟩ := he
        exact ((hin j e).mp he).1

theorem create_spec [Inhabited K] :
    ∃ t, create (K := K) = some t ∧ Represents hash t ∅ := by
  have hrep : Rep hash (⟨fun _ => default, fun _ => 0, fun _ => none, 0, 0, fun _ => none⟩ :
      HandleTable K) (fun _ => []) ∅ := by
    constructor
    · intro i hi
      exact absurd hi (Nat.not_lt_zero i)
    · intro i hi
      exact absurd hi (Nat.not_lt_zero i)
    · intro i hi
      exact absurd hi (Nat.not_lt_zero i)
    · intro i hi
      exact absurd hi (Nat.not_lt_zero i)
    · intro k e
      simp
  obtain ⟨t, hresize, h⟩ := resize_spec hrep rfl (Nat.zero_le _)
  refine ⟨t, ?_, h⟩
  unfold create
  rw [hresize]
  rfl

theorem lookup_spec (h : Represents hash t m) (k : K) :
    t.lookup k (hash k) = some (m.lookup k) := by
  obtain ⟨chains, hrep⟩ := h.rep
  obtain ⟨pre, rest, _, hfind, hload, hhead⟩ := hrep.find h.length_pos h.size k
  unfold lookup
  rw [hfind, Option.map_some, hload, hhead]

/-- The number of keys of the map after a removal. -/
theorem keys_erase_length (m : AList fun _ : K => Nat) (k : K) :
    (m.erase k).keys.length = m.keys.length - if m.lookup k = none then 0 else 1 := by
  rw [AList.keys_erase]
  by_cases hmem : k ∈ m
  · have hsome : m.lookup k ≠ none := mt AList.lookup_eq_none.mp (not_not.mpr hmem)
    rw [List.length_erase_of_mem (AList.mem_keys.mp hmem), if_neg hsome]
  · rw [List.erase_of_not_mem (mt AList.mem_keys.mpr hmem), if_pos (AList.lookup_eq_none.mpr hmem)]
    rfl

theorem keys_length_pos {m : AList fun _ : K => Nat} (h : m.lookup k = some e) :
    0 < m.keys.length := by
  apply List.length_pos_of_mem (a := k)
  rw [← AList.mem_keys, ← AList.lookup_isSome, h]
  rfl

theorem remove_spec (h : Represents hash t m) (k : K) :
    ∃ t', t.remove k (hash k) = some (m.lookup k, t') ∧
      Represents hash t' (m.erase k) := by
  have hpos := h.length_pos
  obtain ⟨chains, hrep⟩ := h.rep
  obtain ⟨pre, rest, hsplit, hfind, hload, hhead⟩ := hrep.find hpos h.size k
  unfold remove
  rw [hfind]
  dsimp only
  rw [hload, hhead]
  cases hlookup : m.lookup k with
  | none =>
      have hnot : k ∉ m.keys := by
        rw [← AList.mem_keys]
        exact AList.lookup_eq_none.mp hlookup
      have hsame : m.erase k = m := by
        apply AList.ext
        exact List.kerase_of_notMem_keys hnot
      rw [hsame]
      exact ⟨t, rfl, h⟩
  | some e =>
      dsimp only
      rw [hlookup] at hhead
      obtain ⟨tail, hrest⟩ := List.head?_eq_some_iff.mp hhead
      subst hrest
      obtain ⟨chains', htaken⟩ := hrep.takeOut hpos hsplit hlookup
      have hframe := @store_frame K t (bucketOf t.length (hash k)) (t.nextHash e) pre
      have hsize : (m.erase k).keys.length = u32 (t.elems - 1) := by
        have hlen := keys_length_pos hlookup
        have hfew := h.few
        have hsub : u32 ((t.elems - 1 : Nat)) = t.elems - 1 := u32_of_lt (by omega)
        have hcast : ((t.elems - 1 : Nat) : Int) = t.elems - 1 := by
          rw [h.size]
          omega
        rw [keys_erase_length, if_neg (by rw [hlookup]; exact Option.some_ne_none e), ← h.size,
          ← hsub, hcast]
      have hless : u32 (t.elems - 1) ≤ t.elems := by
        rw [← hsize, keys_erase_length, ← h.size]
        exact Nat.sub_le _ _
      refine ⟨_, rfl, ⟨_, htaken.withElems _⟩, hsize.symm, hless.trans h.few, ?_, ?_⟩
      · dsimp only
        rw [hframe.length]
        exact hless.trans h.load_le
      · dsimp only
        rw [hframe.length]
        exact h.power

/-- The number of keys of the map after an insertion. -/
theorem keys_insert_length (m : AList fun _ : K => Nat) (k : K) (e : Nat) :
    (m.insert k e).keys.length = m.keys.length + if m.lookup k = none then 1 else 0 := by
  rw [AList.keys_insert, List.length_cons]
  by_cases hmem : k ∈ m
  · have hsome : m.lookup k ≠ none := mt AList.lookup_eq_none.mp (not_not.mpr hmem)
    have hpos : 0 < m.keys.length := List.length_pos_of_mem (AList.mem_keys.mp hmem)
    rw [List.length_erase_of_mem (AList.mem_keys.mp hmem), if_neg hsome]
    omega
  · rw [List.erase_of_not_mem (mt AList.mem_keys.mpr hmem), if_pos (AList.lookup_eq_none.mpr hmem)]

theorem insert_spec (h : Represents hash t m) (k : K) (hfresh : ∀ k', m.lookup k' ≠ some e)
    (hfew : (m.insert k e).keys.length ≤ 2 ^ 31) :
    ∃ t', (t.withHandle e k (hash k)).insert e = some (m.lookup k, t') ∧
      Represents hash t' (m.insert k e) := by
  have hpos := h.length_pos
  obtain ⟨chains, hrep⟩ := h.rep
  have hout : ∀ i < t.length, e ∉ chains i := by
    intro i hi he
    exact hfresh (t.key e) ((hrep.entry _ e).mpr ⟨rfl, i, hi, he⟩)
  have hrep₀ := hrep.withHandle hout k
  have hkey : (t.withHandle e k (hash k)).key e = k := Function.update_self _ _ _
  have hhash : (t.withHandle e k (hash k)).hash e = hash k := Function.update_self _ _ _
  have hlength : (t.withHandle e k (hash k)).length = t.length := rfl
  have helems : (t.withHandle e k (hash k)).elems = t.elems := rfl
  generalize t.withHandle e k (hash k) = t₀ at *
  rw [← hlength] at hpos hout
  obtain ⟨pre, rest, hsplit, hfind, hload, hhead⟩ := hrep₀.find hpos (helems.trans h.size) k
  obtain ⟨chains', hput⟩ := hrep₀.put hpos hkey hhash hout hsplit hhead
  have hframe := @store_frame K
    { t₀ with nextHash := Function.update t₀.nextHash e ((m.lookup k).bind t₀.nextHash) }
    (bucketOf t₀.length (hash k)) (some e) pre
  have hkeys := keys_insert_length m k e
  have hpower := h.power
  rw [← hlength] at hpower
  have hroom := h.load_le
  rw [← hlength, ← helems] at hroom
  have hsize := h.size
  rw [← helems] at hsize
  unfold insert
  rw [hkey, hhash, hfind]
  dsimp only
  rw [hload, hhead]
  generalize HandleTable.store _ _ _ = t₁ at *
  obtain ⟨_, _, hlength₁, helems₁, _, _⟩ := hframe
  dsimp only at hlength₁ helems₁
  rw [← hlength₁] at hpower hroom
  rw [← helems₁] at hroom hsize
  cases hlookup : m.lookup k with
  | some x =>
      rw [hlookup, if_neg (Option.some_ne_none x), Nat.add_zero, ← hsize] at hkeys
      rw [hkeys] at hfew
      exact ⟨t₁, rfl, ⟨_, hput⟩, hkeys.symm, hfew, hroom, hpower⟩
  | none =>
      rw [hlookup, if_pos rfl, ← hsize] at hkeys
      rw [hkeys] at hfew
      have hone : u32 (t₁.elems + 1) = t₁.elems + 1 := by
        exact_mod_cast u32_of_lt (n := t₁.elems + 1) (by omega)
      have hcounted := hput.withElems (t₁.elems + 1)
      dsimp only
      rw [hone]
      by_cases hfull : t₁.length < t₁.elems + 1
      · obtain ⟨t', hresize, h'⟩ := resize_spec hcounted hkeys.symm hfew
        rw [if_pos hfull, hresize]
        exact ⟨t', rfl, h'⟩
      · rw [if_neg hfull]
        exact ⟨_, rfl, ⟨_, hcounted⟩, hkeys.symm, hfew, Nat.le_of_not_lt hfull, hpower⟩

end Calls

/-! ## Runs -/

section Runs

variable {hash : K → Nat} {t : HandleTable K} {m : AList fun _ : K => Nat}

/-- A table after a sequence of calls, and the handles that the calls left in it. A call inserts
a handle that the table does not hold. -/
inductive Run [Inhabited K] (hash : K → Nat) : HandleTable K → (AList fun _ : K => Nat) → Prop
  | create {table} : create = some table → Run hash table ∅
  | insert {table next map k e old} : Run hash table map → (∀ k', map.lookup k' ≠ some e) →
      (map.insert k e).keys.length ≤ 2 ^ 31 →
      (table.withHandle e k (hash k)).insert e = some (old, next) → Run hash next (map.insert k e)
  | remove {table next map k result} : Run hash table map →
      table.remove k (hash k) = some (result, next) → Run hash next (map.erase k)

/-- Every run keeps the table a table of the map. -/
theorem Run.represents [Inhabited K] (h : Run hash t m) : Represents hash t m := by
  induction h with
  | create hcreate =>
      obtain ⟨t', hcreate', h⟩ := @create_spec K _ hash _
      rw [hcreate] at hcreate'
      cases hcreate'
      exact h
  | insert _ hfresh hfew hcall ih =>
      obtain ⟨t', hcall', h⟩ := insert_spec ih _ hfresh hfew
      rw [hcall] at hcall'
      cases hcall'
      exact h
  | remove _ hcall ih =>
      obtain ⟨t', hcall', h⟩ := remove_spec ih _
      rw [hcall] at hcall'
      cases hcall'
      exact h

/-- After any calls the table answers as the map does, its size is the number of keys, and its
chains hold each handle of the map once, in at least as many buckets, a power of two. -/
theorem refines_map [Inhabited K] (hash : K → Nat) :
    (∃ t : HandleTable K, create = some t) ∧
    ∀ (t : HandleTable K) (m : AList fun _ : K => Nat), Run hash t m →
      (∀ k, t.lookup k (hash k) = some (m.lookup k)) ∧
      (∀ k e, (∀ k', m.lookup k' ≠ some e) → (m.insert k e).keys.length ≤ 2 ^ 31 →
        ∃ t', (t.withHandle e k (hash k)).insert e = some (m.lookup k, t') ∧
          Run hash t' (m.insert k e)) ∧
      (∀ k, ∃ t', t.remove k (hash k) = some (m.lookup k, t') ∧ Run hash t' (m.erase k)) ∧
      t.elems = m.keys.length ∧ t.elems ≤ t.length ∧ (∃ n, t.length = 2 ^ n) ∧
      ∃ chains : Nat → List Nat, (∀ i < t.length, IsChain t.nextHash (t.list i) (chains i)) ∧
        ((List.range t.length).flatMap chains).Perm (m.entries.map Sigma.snd) := by
  constructor
  · obtain ⟨t, hcreate, _⟩ := @create_spec K _ hash _
    exact ⟨t, hcreate⟩
  · intro t m hrun
    have h := hrun.represents
    refine ⟨lookup_spec h, ?_, ?_, h.size, h.load_le, h.power, ?_⟩
    · intro k e hfresh hfew
      obtain ⟨t', hcall, _⟩ := insert_spec h k hfresh hfew
      exact ⟨t', hcall, hrun.insert hfresh hfew hcall⟩
    · intro k
      obtain ⟨t', hcall, _⟩ := remove_spec h k
      exact ⟨t', hcall, hrun.remove hcall⟩
    · obtain ⟨chains, hrep⟩ := h.rep
      exact ⟨chains, hrep.chain, hrep.perm⟩

end Runs

end HandleTable

end StarCache
