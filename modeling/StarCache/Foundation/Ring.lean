import Mathlib.Data.List.Chain
import Mathlib.Data.List.Nodup
import Mathlib.Logic.Function.Basic

/-!
# Circular doubly linked lists

A memory of cells with two pointers each. A store goes to one pointer of one cell; an access
to a cell that is not allocated, or through a null pointer, has no outcome. A ring is a list
of distinct cells behind a head cell, linked forwards and backwards.
-/

structure Links (P : Type) where
  next : Option P
  prev : Option P
deriving DecidableEq

/-- The cells that are allocated. -/
abbrev Cells (P : Type) := P → Option (Links P)

namespace Cells

variable {P : Type} [DecidableEq P]

def setNext (m : Cells P) (p : P) (v : Option P) : Option (Cells P) :=
  (m p).map fun links => Function.update m p (some { links with next := v })

def setPrev (m : Cells P) (p : P) (v : Option P) : Option (Cells P) :=
  (m p).map fun links => Function.update m p (some { links with prev := v })

def next (m : Cells P) (p : P) : Option P := (m p).bind Links.next

def prev (m : Cells P) (p : P) : Option P := (m p).bind Links.prev

/-- Take `e` out of the ring it is in, and clear its pointers. -/
def unlink (m : Cells P) (e : P) : Option (Cells P) := do
  let after ← m.next e
  let m ← m.setPrev after (m.prev e)
  let before ← m.prev e
  let m ← m.setNext before (m.next e)
  let m ← m.setNext e none
  m.setPrev e none

/-- Put `e` between `list` and the cell before it. -/
def linkBefore (m : Cells P) (list e : P) : Option (Cells P) := do
  let m ← m.setNext e (some list)
  let head ← m list
  let m ← m.setPrev e head.prev
  let before ← m.prev e
  let m ← m.setNext before (some e)
  let after ← m.next e
  m.setPrev after (some e)

section Stores

variable {m m' : Cells P} {p q : P} {v : Option P}

theorem setNext_some {links : Links P} (h : m p = some links) :
    m.setNext p v = some (Function.update m p (some { links with next := v })) := by
  unfold setNext
  rw [h, Option.map_some]

theorem setPrev_some {links : Links P} (h : m p = some links) :
    m.setPrev p v = some (Function.update m p (some { links with prev := v })) := by
  unfold setPrev
  rw [h, Option.map_some]

omit [DecidableEq P] in
theorem next_some {links : Links P} (h : m p = some links) : m.next p = links.next := by
  unfold next
  rw [h, Option.bind_some]

omit [DecidableEq P] in
theorem prev_some {links : Links P} (h : m p = some links) : m.prev p = links.prev := by
  unfold prev
  rw [h, Option.bind_some]

/-- A store to a cell that is allocated is possible and changes one pointer. -/
theorem setNext_spec (h : (m p).isSome) :
    ∃ m', m.setNext p v = some m' ∧ (∀ q, (m' q).isSome = (m q).isSome) ∧
      (∀ q, m'.next q = if q = p then v else m.next q) ∧ m'.prev = m.prev ∧
      ∀ q, q ≠ p → m' q = m q := by
  obtain ⟨links, hlinks⟩ := Option.isSome_iff_exists.mp h
  refine ⟨_, setNext_some hlinks, fun q => ?_, fun q => ?_, ?_, fun q hq => Function.update_of_ne hq _ _⟩
  · by_cases hq : q = p
    · rw [hq, Function.update_self, hlinks]
      rfl
    · rw [Function.update_of_ne hq]
  · unfold next
    by_cases hq : q = p
    · rw [if_pos hq, hq, Function.update_self]
      rfl
    · rw [if_neg hq, Function.update_of_ne hq]
  · funext q
    unfold prev
    by_cases hq : q = p
    · rw [hq, Function.update_self, hlinks]
      rfl
    · rw [Function.update_of_ne hq]

theorem setPrev_spec (h : (m p).isSome) :
    ∃ m', m.setPrev p v = some m' ∧ (∀ q, (m' q).isSome = (m q).isSome) ∧
      m'.next = m.next ∧ (∀ q, m'.prev q = if q = p then v else m.prev q) ∧
      ∀ q, q ≠ p → m' q = m q := by
  obtain ⟨links, hlinks⟩ := Option.isSome_iff_exists.mp h
  refine ⟨_, setPrev_some hlinks, fun q => ?_, ?_, fun q => ?_, fun q hq => Function.update_of_ne hq _ _⟩
  · by_cases hq : q = p
    · rw [hq, Function.update_self, hlinks]
      rfl
    · rw [Function.update_of_ne hq]
  · funext q
    unfold next
    by_cases hq : q = p
    · rw [hq, Function.update_self, hlinks]
      rfl
    · rw [Function.update_of_ne hq]
  · unfold prev
    by_cases hq : q = p
    · rw [if_pos hq, hq, Function.update_self]
      rfl
    · rw [if_neg hq, Function.update_of_ne hq]

end Stores

/-! ## Rings -/

/-- `b` follows `a`, in both directions. -/
def Linked (m : Cells P) (a b : P) : Prop := m.next a = some b ∧ m.prev b = some a

/-- The cells `l` form a ring with the head `head`. -/
structure Ring (m : Cells P) (head : P) (l : List P) : Prop where
  nodup : (head :: l).Nodup
  alive : ∀ p ∈ head :: l, (m p).isSome
  chain : List.IsChain m.Linked (head :: l ++ [head])

omit [DecidableEq P] in
/-- A chain depends on the forward pointers but the last cell's, and on the backward pointers
but the first cell's. -/
theorem chain_congr {m m' : Cells P} {l : List P} (h : List.IsChain m.Linked l)
    (hnext : ∀ p ∈ l.dropLast, m'.next p = m.next p) (hprev : ∀ p ∈ l.tail, m'.prev p = m.prev p) :
    List.IsChain m'.Linked l := by
  induction l with
  | nil => exact List.IsChain.nil
  | cons a l ih =>
      cases l with
      | nil => exact List.IsChain.singleton a
      | cons b l =>
          rw [List.isChain_cons_cons] at h ⊢
          obtain ⟨hfirst, hrest⟩ := h
          refine ⟨⟨?_, ?_⟩, ?_⟩
          · rw [hnext a (by simp), hfirst.1]
          · rw [hprev b (by simp), hfirst.2]
          · refine ih hrest (fun p hp => hnext p ?_) (fun p hp => hprev p ?_)
            · exact List.mem_cons_of_mem _ hp
            · exact List.mem_cons_of_mem _ hp

namespace Ring

variable {m : Cells P} {head e : P} {l : List P}

omit [DecidableEq P] in
/-- The first cell behind the head; an empty ring leads back to its head. -/
theorem next_head (h : m.Ring head l) : m.next head = some (l.head?.getD head) := by
  have hchain := h.chain
  cases l with
  | nil =>
      rw [List.cons_append, List.nil_append, List.isChain_cons_cons] at hchain
      exact hchain.1.1
  | cons a l =>
      rw [List.cons_append, List.cons_append, List.isChain_cons_cons] at hchain
      exact hchain.1.1

omit [DecidableEq P] in
/-- No cell of a ring with a cell behind the head is its own successor. -/
theorem next_ne_self (h : m.Ring head l) (he : e ∈ l) : m.next e ≠ some e := by
  obtain ⟨pre, post, rfl⟩ := List.append_of_mem he
  have hchain : List.IsChain m.Linked ((head :: pre) ++ e :: (post ++ [head])) := by
    simpa using h.chain
  have hnodup := h.nodup
  have hright := (List.isChain_append.mp hchain).2.1
  intro hself
  cases post with
  | nil =>
      rw [List.nil_append, List.isChain_cons_cons] at hright
      have heq : e = head := Option.some.inj (hself.symm.trans hright.1.1)
      simp [heq] at hnodup
  | cons a post =>
      rw [List.cons_append, List.isChain_cons_cons] at hright
      have heq : e = a := Option.some.inj (hself.symm.trans hright.1.1)
      have hapart := (List.nodup_append.mp (List.nodup_cons.mp hnodup).2).2.1
      exact (List.nodup_cons.mp hapart).1 (heq ▸ List.mem_cons_self)

omit [DecidableEq P] in
/-- A ring is untouched by what happens to other cells. -/
theorem frame {m' : Cells P} (h : m.Ring head l) (hsame : ∀ p ∈ head :: l, m' p = m p) :
    m'.Ring head l := by
  refine ⟨h.nodup, fun p hp => by rw [hsame p hp]; exact h.alive p hp, ?_⟩
  refine chain_congr h.chain (fun p hp => ?_) (fun p hp => ?_)
  · have hmem : p ∈ head :: l := by
      rwa [List.dropLast_concat] at hp
    unfold next
    rw [hsame p hmem]
  · have hmem : p ∈ head :: l := by
      simpa [or_comm] using hp
    unfold prev
    rw [hsame p hmem]

omit [DecidableEq P] in
/-- The neighbours of a cell of the ring. -/
theorem neighbours {pre post : List P} (h : m.Ring head (pre ++ e :: post)) :
    ∃ before after, (head :: pre).getLast? = some before ∧ (post ++ [head]).head? = some after ∧
      m.Linked before e ∧ m.Linked e after := by
  have hchain : List.IsChain m.Linked ((head :: pre) ++ e :: (post ++ [head])) := by
    simpa using h.chain
  obtain ⟨_, hright, hlink⟩ := List.isChain_append.mp hchain
  have hafter : ∃ after, (post ++ [head]).head? = some after := by
    cases post with
    | nil => exact ⟨head, rfl⟩
    | cons a post => exact ⟨a, rfl⟩
  obtain ⟨after, hafter⟩ := hafter
  refine ⟨_, after, List.getLast?_eq_some_getLast (by simp), hafter, ?_, ?_⟩
  · exact hlink _ (List.getLast?_eq_some_getLast (by simp)) e rfl
  · obtain ⟨rest, hrest⟩ := List.head?_eq_some_iff.mp hafter
    rw [hrest, List.isChain_cons_cons] at hright
    exact hright.1

omit [DecidableEq P] in
/-- The cells on both sides of `e` are distinct. -/
theorem nodup_parts {pre post : List P} (h : (head :: (pre ++ e :: post)).Nodup) :
    (head :: pre).Nodup ∧ (post ++ [head]).Nodup ∧ e ∉ head :: pre ∧ e ∉ post ++ [head] ∧
      ∀ p ∈ post, p ∉ head :: pre := by
  grind

/-- The neighbours of `e` lead past it. -/
theorem bypass {m' : Cells P} {pre post : List P} {before after : P}
    (h : m.Ring head (pre ++ e :: post)) (hbefore : (head :: pre).getLast? = some before)
    (hafter : (post ++ [head]).head? = some after)
    (hnext : ∀ p, m'.next p = if p = e then none else if p = before then some after else m.next p)
    (hprev : ∀ p, m'.prev p = if p = e then none else if p = after then some before else m.prev p) :
    List.IsChain m'.Linked (head :: (pre ++ post) ++ [head]) := by
  have hchain : List.IsChain m.Linked ((head :: pre) ++ e :: (post ++ [head])) := by
    simpa using h.chain
  obtain ⟨hleft, hright, _⟩ := List.isChain_append.mp hchain
  obtain ⟨hleftnodup, hrightnodup, hnotleft, hnotright, hapart⟩ := nodup_parts h.nodup
  have hbmem : before ∈ head :: pre := List.mem_of_getLast? hbefore
  have hamem : after ∈ post ++ [head] := List.mem_of_head? hafter
  obtain ⟨init, hinit⟩ := List.getLast?_eq_some_iff.mp hbefore
  obtain ⟨rest, hrest⟩ := List.head?_eq_some_iff.mp hafter
  have hsplit : head :: (pre ++ post) ++ [head] = (head :: pre) ++ (post ++ [head]) := by simp
  rw [hsplit]
  refine List.isChain_append.mpr ⟨chain_congr hleft ?_ ?_, chain_congr hright.tail ?_ ?_, ?_⟩
  · intro p hp
    have hpe : p ≠ e := fun heq => hnotleft (heq ▸ List.dropLast_subset _ hp)
    have hpb : p ≠ before := by
      rw [hinit, List.dropLast_concat] at hp
      rw [hinit] at hleftnodup
      exact (List.nodup_append.mp hleftnodup).2.2 p hp before (by simp)
    rw [hnext, if_neg hpe, if_neg hpb]
  · intro p hp
    have hpe : p ≠ e := fun heq => hnotleft (heq ▸ List.mem_of_mem_tail hp)
    have hpa : p ≠ after := by
      rintro rfl
      cases List.mem_append.mp hamem with
      | inl hmem => exact hapart p hmem (List.mem_of_mem_tail hp)
      | inr heq =>
          rw [List.mem_singleton.mp heq] at hp
          exact (List.nodup_cons.mp hleftnodup).1 hp
    rw [hprev, if_neg hpe, if_neg hpa]
  · intro p hp
    have hpost : p ∈ post := by rwa [List.dropLast_concat] at hp
    have hpe : p ≠ e := fun heq => hnotright (heq ▸ List.mem_append_left _ hpost)
    have hpb : p ≠ before := fun heq => hapart p hpost (heq ▸ hbmem)
    rw [hnext, if_neg hpe, if_neg hpb]
  · intro p hp
    have hpe : p ≠ e := fun heq => hnotright (heq ▸ List.mem_of_mem_tail hp)
    have hpa : p ≠ after := by
      rw [hrest, List.tail_cons] at hp
      rw [hrest] at hrightnodup
      exact fun heq => (List.nodup_cons.mp hrightnodup).1 (heq ▸ hp)
    rw [hprev, if_neg hpe, if_neg hpa]
  · intro p hp q hq
    rw [hbefore, Option.mem_some_iff] at hp
    rw [hafter, Option.mem_some_iff] at hq
    have hbe : before ≠ e := fun heq => hnotleft (heq ▸ hbmem)
    have hae : after ≠ e := fun heq => hnotright (heq ▸ hamem)
    rw [← hp, ← hq]
    refine ⟨?_, ?_⟩
    · rw [hnext, if_neg hbe, if_pos rfl]
    · rw [hprev, if_neg hae, if_pos rfl]

/-- A cell is taken out of the ring; no other cell is touched. -/
theorem unlink (h : m.Ring head l) (he : e ∈ l) :
    ∃ m', m.unlink e = some m' ∧ m'.Ring head (l.erase e) ∧ m' e = some ⟨none, none⟩ ∧
      (∀ p, (m' p).isSome = (m p).isSome) ∧ ∀ p, p ∉ head :: l → m' p = m p := by
  obtain ⟨pre, post, rfl⟩ := List.append_of_mem he
  obtain ⟨before, after, hbefore, hafter, hlinkb, hlinka⟩ := h.neighbours
  have hbmem : before ∈ head :: pre := List.mem_of_getLast? hbefore
  have hamem : after ∈ post ++ [head] := List.mem_of_head? hafter
  have hnodup := h.nodup
  have hbcell : before ∈ head :: (pre ++ e :: post) := by grind
  have hacell : after ∈ head :: (pre ++ e :: post) := by grind
  obtain ⟨hleftnodup, hrightnodup, hnotleft, hnotright, hapart⟩ := nodup_parts hnodup
  have hbe : before ≠ e := fun heq => hnotleft (heq ▸ hbmem)
  have hae : after ≠ e := fun heq => hnotright (heq ▸ hamem)
  -- the four stores
  obtain ⟨m₁, hrun₁, halive₁, hnext₁, hprev₁, hother₁⟩ :=
    setPrev_spec (v := m.prev e) (h.alive after hacell)
  obtain ⟨m₂, hrun₂, halive₂, hnext₂, hprev₂, hother₂⟩ :=
    setNext_spec (m := m₁) (v := m₁.next e) ((halive₁ before).trans (h.alive before hbcell))
  have hecell : (m₂ e).isSome := by
    rw [halive₂, halive₁]
    exact h.alive e (List.mem_cons_of_mem _ he)
  obtain ⟨m₃, hrun₃, halive₃, hnext₃, hprev₃, hother₃⟩ := setNext_spec (m := m₂) (v := none) hecell
  obtain ⟨m₄, hrun₄, halive₄, hnext₄, hprev₄, hother₄⟩ :=
    setPrev_spec (m := m₃) (v := none) ((halive₃ e).trans hecell)
  have hnext : ∀ p, m₄.next p = if p = e then none else if p = before then some after else m.next p := by
    intro p
    rw [hnext₄, hnext₃, hnext₂, hnext₁, hlinka.1]
  have hprev : ∀ p, m₄.prev p = if p = e then none else if p = after then some before else m.prev p := by
    intro p
    rw [hprev₄, hprev₃, hprev₂, hprev₁, hlinkb.2]
  have halive : ∀ p, (m₄ p).isSome = (m p).isSome := fun p => by
    rw [halive₄, halive₃, halive₂, halive₁]
  refine ⟨m₄, ?_, ⟨?_, ?_, ?_⟩, ?_, halive, ?_⟩
  · unfold Cells.unlink
    simp only [Option.bind_eq_bind]
    rw [hlinka.1, Option.bind_some, hrun₁, Option.bind_some, hprev₁, if_neg (Ne.symm hae), hlinkb.2,
      Option.bind_some, hrun₂, Option.bind_some, hrun₃, Option.bind_some, hrun₄]
  · exact hnodup.sublist (List.Sublist.cons_cons _ List.erase_sublist)
  · intro p hp
    rw [halive]
    exact h.alive p (List.Sublist.subset (List.Sublist.cons_cons _ List.erase_sublist) hp)
  · have herase : (pre ++ e :: post).erase e = pre ++ post := by
      rw [List.erase_append_right _ (fun hmem => hnotleft (List.mem_cons_of_mem _ hmem)),
        List.erase_cons_head]
    rw [herase]
    exact h.bypass hbefore hafter hnext hprev
  · obtain ⟨links, hlinks⟩ := Option.isSome_iff_exists.mp ((halive e).trans (h.alive e (by simp)))
    obtain ⟨next, prev⟩ := links
    have hnone : next = none := (next_some hlinks).symm.trans ((hnext e).trans (if_pos rfl))
    have hnone' : prev = none := (prev_some hlinks).symm.trans ((hprev e).trans (if_pos rfl))
    rw [hlinks, hnone, hnone']
  · intro p hp
    have hpe : p ≠ e := fun heq => hp (List.mem_cons_of_mem _ (heq.symm ▸ he))
    have hpb : p ≠ before := fun heq => hp (heq ▸ hbcell)
    have hpa : p ≠ after := fun heq => hp (heq ▸ hacell)
    rw [hother₄ p hpe, hother₃ p hpe, hother₂ p hpb, hother₁ p hpa]

/-- A cell is put before the head; no other cell is touched. -/
theorem linkBefore (h : m.Ring head l) (he : e ∉ head :: l) (halive : (m e).isSome) :
    ∃ m', m.linkBefore head e = some m' ∧ m'.Ring head (l ++ [e]) ∧
      (∀ p, (m' p).isSome = (m p).isSome) ∧ ∀ p, p ∉ head :: l → p ≠ e → m' p = m p := by
  obtain ⟨before, hbefore⟩ : ∃ before, (head :: l).getLast? = some before :=
    ⟨_, List.getLast?_eq_some_getLast (by simp)⟩
  have hlink : m.Linked before head := (List.isChain_append.mp h.chain).2.2 before hbefore head rfl
  have hbmem : before ∈ head :: l := List.mem_of_getLast? hbefore
  have hnodup := h.nodup
  have hhe : head ≠ e := fun heq => he (heq ▸ List.mem_cons_self)
  have hbe : before ≠ e := fun heq => he (heq ▸ hbmem)
  -- the four stores
  obtain ⟨m₁, hrun₁, halive₁, hnext₁, hprev₁, hother₁⟩ := setNext_spec (v := some head) halive
  obtain ⟨m₂, hrun₂, halive₂, hnext₂, hprev₂, hother₂⟩ :=
    setPrev_spec (m := m₁) (v := m.prev head) ((halive₁ e).trans halive)
  have hbcell : (m₂ before).isSome := by
    rw [halive₂, halive₁]
    exact h.alive before hbmem
  obtain ⟨m₃, hrun₃, halive₃, hnext₃, hprev₃, hother₃⟩ := setNext_spec (v := some e) hbcell
  have hhcell : (m₃ head).isSome := by
    rw [halive₃, halive₂, halive₁]
    exact h.alive head List.mem_cons_self
  obtain ⟨m₄, hrun₄, halive₄, hnext₄, hprev₄, hother₄⟩ := setPrev_spec (v := some e) hhcell
  have hnext : ∀ p, m₄.next p = if p = before then some e else if p = e then some head else m.next p := by
    intro p
    rw [hnext₄, hnext₃, hnext₂, hnext₁]
  have hprev : ∀ p, m₄.prev p = if p = head then some e else if p = e then some before else m.prev p := by
    intro p
    rw [hprev₄, hprev₃, hprev₂, hprev₁, hlink.2]
  have halive' : ∀ p, (m₄ p).isSome = (m p).isSome := fun p => by
    rw [halive₄, halive₃, halive₂, halive₁]
  refine ⟨m₄, ?_, ⟨?_, ?_, ?_⟩, halive', ?_⟩
  · obtain ⟨links, hlinks⟩ := Option.isSome_iff_exists.mp (h.alive head List.mem_cons_self)
    have hread : m₁ head = some links := (hother₁ head hhe).trans hlinks
    rw [prev_some hlinks] at hrun₂ hprev₂
    have hlast : links.prev = some before := by rw [← prev_some hlinks, hlink.2]
    unfold Cells.linkBefore
    simp only [Option.bind_eq_bind]
    rw [hrun₁, Option.bind_some, hread, Option.bind_some, hrun₂, Option.bind_some, hprev₂, if_pos rfl,
      hlast, Option.bind_some, hrun₃, Option.bind_some, hnext₃, if_neg (Ne.symm hbe), hnext₂, hnext₁,
      if_pos rfl, Option.bind_some, hrun₄]
  · grind
  · intro p hp
    rw [halive']
    rw [← List.cons_append, List.mem_append, List.mem_singleton] at hp
    cases hp with
    | inl hmem => exact h.alive p hmem
    | inr heq => exact heq ▸ halive
  · have hsplit : head :: (l ++ [e]) ++ [head] = (head :: l) ++ [e, head] := by simp
    obtain ⟨init, hinit⟩ := List.getLast?_eq_some_iff.mp hbefore
    rw [hsplit]
    refine List.isChain_append.mpr
      ⟨chain_congr (List.isChain_append.mp h.chain).1 ?_ ?_, List.isChain_pair.mpr ⟨?_, ?_⟩, ?_⟩
    · intro p hp
      rw [hinit, List.dropLast_concat] at hp
      rw [hnext, if_neg (by grind), if_neg (by grind)]
    · intro p hp
      rw [List.tail_cons] at hp
      rw [hprev, if_neg (by grind), if_neg (by grind)]
    · rw [hnext, if_neg (Ne.symm hbe), if_pos rfl]
    · rw [hprev, if_pos rfl]
    · intro p hp q hq
      rw [hbefore, Option.mem_some_iff] at hp
      rw [List.head?_cons, Option.mem_some_iff] at hq
      rw [← hp, ← hq]
      refine ⟨?_, ?_⟩
      · rw [hnext, if_pos rfl]
      · rw [hprev, if_neg (Ne.symm hhe), if_pos rfl]
  · intro p hp hpe
    have hpb : p ≠ before := fun heq => hp (heq ▸ hbmem)
    have hph : p ≠ head := fun heq => hp (heq ▸ List.mem_cons_self)
    rw [hother₄ p hph, hother₃ p hpb, hother₂ p hpe, hother₁ p hpe]

end Ring

end Cells
