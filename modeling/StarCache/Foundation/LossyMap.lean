import Mathlib.Data.List.Basic
import Mathlib.Data.List.Nodup
import Mathlib.Data.List.Perm.Basic
import Mathlib.Logic.Function.Basic

/-!
# Maps that forget

A map that may lose what it holds at any time, with the operations of its users: a value is put,
seen or taken away. `Leads` runs operations one after the other, and `Legal` is what users see of
it: only what was put last. Where several operations take effect in each step of a map, they can be
told as operations one after the other (`Points.order`).
-/

namespace LossyMap

open Function

variable {K V T S : Type}

/-- A map may lose what it holds. -/
def Forgets (m m' : K → Option V) : Prop := ∀ k, m' k = m k ∨ m' k = none

theorem forgets_iff {m m' : K → Option V} :
    Forgets m m' ↔ ∀ k v, m' k = some v → m k = some v := by
  constructor
  · intro h k v hk
    rcases h k with heq | hnone
    · exact heq.symm.trans hk
    · cases hnone.symm.trans hk
  · intro h k
    cases hk : m' k with
    | none => exact Or.inr rfl
    | some v => exact Or.inl (h k v hk).symm

theorem Forgets.refl (m : K → Option V) : Forgets m m := fun _ => Or.inl rfl

/-- What a user does with the map. -/
inductive Op (K V : Type)
  | put (k : K) (v : V)
  /-- A value that satisfies `P` is seen. -/
  | see (k : K) (P : V → Prop)
  | clear (k : K)
  /-- Nothing is done. -/
  | skip

def Op.IsPut : Op K V → Prop
  | .put _ _ => True
  | .see _ _ | .clear _ | .skip => False

/-- The operation may take effect in a step from `m` to `m'` that puts `put`. A key is also cleared
when a new value is put in the place of the old one. -/
def Op.TakesEffect (put : Option (K × V)) (m m' : K → Option V) : Op K V → Prop
  | .put k v => put = some (k, v)
  | .see k P => ∃ v, m k = some v ∧ P v
  | .clear k => m k = none ∨ m' k = none ∨ ∃ v, put = some (k, v)
  | .skip => True

section Changes

variable [DecidableEq K]

/-- A step of a map that forgets, in which a value may be put. -/
def Alters (put : Option (K × V)) (m m' : K → Option V) : Prop :=
  match put with
  | none => Forgets m m'
  | some (k, v) => Forgets (update m k (some v)) m'

def Op.Does : Op K V → (K → Option V) → (K → Option V) → Prop
  | .put k v, m, m' => Alters (some (k, v)) m m'
  | .see k P, m, m' => Forgets m m' ∧ ∃ v, m k = some v ∧ P v
  | .clear k, m, m' => Forgets m m' ∧ m' k = none
  | .skip, m, m' => Forgets m m'

/-- Operations one after the other, latest first. In between values may be lost. -/
inductive Leads (m : K → Option V) : List (Op K V) → (K → Option V) → Prop
  | refl : Leads m [] m
  | forget {ops : List (Op K V)} {m' m'' : K → Option V} :
      Leads m ops m' → Forgets m' m'' → Leads m ops m''
  | op {ops : List (Op K V)} {m' m'' : K → Option V} (o : Op K V) :
      Leads m ops m' → o.Does m' m'' → Leads m (o :: ops) m''

/-- The value that operations, latest first, leave under a key where nothing is lost. -/
def latest (k : K) : List (Op K V) → Option V
  | [] => none
  | .put k' v :: ops => if k' = k then some v else latest k ops
  | .clear k' :: ops => if k' = k then none else latest k ops
  | .see _ _ :: ops | .skip :: ops => latest k ops

/-- What is seen is what was put last, and has not been cleared since. -/
def Legal : List (Op K V) → Prop
  | [] => True
  | .see k P :: ops => (∃ v, latest k ops = some v ∧ P v) ∧ Legal ops
  | .put _ _ :: ops | .clear _ :: ops | .skip :: ops => Legal ops

variable {m m' m'' : K → Option V} {ops later : List (Op K V)} {put : Option (K × V)}

theorem Leads.trans (h : Leads m ops m') (h' : Leads m' later m'') :
    Leads m (later ++ ops) m'' := by
  induction h' with
  | refl => exact h
  | forget _ hforgets ih => exact ih.forget hforgets
  | op o _ hdoes ih => exact ih.op o hdoes

/-- A map that is empty at first never has anything but what was put last. -/
theorem Leads.legal (h : Leads (fun _ => none) ops m) :
    Legal ops ∧ ∀ k v, m k = some v → latest k ops = some v := by
  induction h with
  | refl => exact ⟨trivial, fun _ _ h => nomatch h⟩
  | forget _ hforgets ih => exact ⟨ih.1, fun k v hk => ih.2 k v (forgets_iff.mp hforgets k v hk)⟩
  | op o _ hdoes ih =>
      obtain ⟨hlegal, hlatest⟩ := ih
      cases o with
      | put k v =>
          refine ⟨hlegal, fun k' v' hk' => ?_⟩
          have hv' := forgets_iff.mp hdoes k' v' hk'
          rw [latest]
          split
          next hk => rwa [hk, update_self] at hv'
          next hk =>
            rw [update_of_ne (Ne.symm hk)] at hv'
            exact hlatest k' v' hv'
      | see k P =>
          obtain ⟨hforgets, v, hv, hP⟩ := hdoes
          exact ⟨⟨⟨v, hlatest k v hv, hP⟩, hlegal⟩, fun k' v' hk' =>
            hlatest k' v' (forgets_iff.mp hforgets k' v' hk')⟩
      | clear k =>
          obtain ⟨hforgets, hnone⟩ := hdoes
          refine ⟨hlegal, fun k' v' hk' => ?_⟩
          rw [latest, if_neg]
          · exact hlatest k' v' (forgets_iff.mp hforgets k' v' hk')
          · rintro rfl
            cases hnone.symm.trans hk'
      | skip => exact ⟨hlegal, fun k v hk => hlatest k v (forgets_iff.mp hdoes k v hk)⟩

/-- Operations that leave the map as it is, in any order. -/
theorem leads_same (h : ∀ o ∈ ops, o.Does m m) : Leads m ops m := by
  induction ops with
  | nil => exact .refl
  | cons o rest ih =>
      exact (ih fun o' ho' => h o' (List.mem_cons_of_mem _ ho')).op o (h o List.mem_cons_self)

theorem forgets_clear (m : K → Option V) (k : K) : Forgets m (update m k none) := by
  intro k'
  by_cases hk : k' = k
  · rw [hk, update_self]
    exact Or.inr rfl
  · rw [update_of_ne hk]
    exact Or.inl rfl

/-! ## Operations in one step -/

omit [DecidableEq K] in
theorem Op.TakesEffect.of_put {o : Op K V} (h : o.TakesEffect put m m') (hput : o.IsPut) :
    ∃ k v, o = .put k v ∧ put = some (k, v) := by
  cases o with
  | put k v => exact ⟨k, v, rfl, h⟩
  | see | clear | skip => exact hput.elim

/-- What is seen or missed already before the step. -/
theorem Op.TakesEffect.before {o : Op K V} (h : o.TakesEffect put m m') (hput : ¬ o.IsPut)
    (hclear : ∀ k, o = .clear k → m k = none) : o.Does m m := by
  cases o with
  | put k v => exact absurd trivial hput
  | see k P => exact ⟨.refl m, h⟩
  | clear k => exact ⟨.refl m, hclear k rfl⟩
  | skip => exact .refl m

theorem exists_split (P : T → Prop) (L : List T) :
    ∃ A B : List T, (A ++ B).Perm L ∧ (∀ a ∈ A, P a) ∧ ∀ b ∈ B, ¬ P b := by
  classical
  refine ⟨L.filter fun a => decide (P a), L.filter fun a => !decide (P a),
    List.filter_append_perm _ L, fun a ha => ?_, fun b hb => ?_⟩
  · exact of_decide_eq_true (List.mem_filter.mp ha).2
  · have := (List.mem_filter.mp hb).2
    rw [Bool.not_eq_true'] at this
    exact of_decide_eq_false this

/-- The value that a step puts is put by one of the operations. -/
theorem Alters.puts {op : T → Op K V} {L : List T} (h : Alters put m m')
    (hput : ∀ k v, put = some (k, v) → ∃ a ∈ L, op a = .put k v)
    (hops : ∀ a ∈ L, ∃ k v, op a = .put k v ∧ put = some (k, v)) (hone : ∀ a ∈ L, ∀ b ∈ L, a = b)
    (hnodup : L.Nodup) : Leads m (L.map op) m' := by
  cases put with
  | none =>
      cases L with
      | nil => exact .forget .refl h
      | cons a rest =>
          obtain ⟨_, _, _, hnone⟩ := hops a List.mem_cons_self
          cases hnone
  | some x =>
      obtain ⟨a, ha, hop⟩ := hput x.1 x.2 rfl
      obtain rfl : L = [a] := List.perm_singleton.mp <|
        (List.perm_ext_iff_of_nodup hnodup (List.nodup_singleton a)).mpr fun b =>
          ⟨fun hb => List.mem_singleton.mpr (hone b hb a ha), fun hb =>
            List.mem_singleton.mp hb ▸ ha⟩
      rw [List.map_singleton, hop]
      exact .op _ .refl h

/-- A value that is overwritten may be lost before. -/
theorem Alters.of_update {k : K} {v : V} (h : Alters (some (k, v)) m m') (o : Option V) :
    Alters (some (k, v)) (update m k o) m' := by
  show Forgets (update (update m k o) k (some v)) m'
  rw [update_idem]
  exact h

/-- What happens in a step, one after the other: first something is seen or missed before it, then
the old value of a key that is put anew goes, then the new one is put, and last something is missed
after the step. -/
theorem Alters.leads {looks anew puts late : List (Op K V)} (h : Alters put m m')
    (hlooks : ∀ o ∈ looks, o.Does m m)
    (hanew : ∀ o ∈ anew, ∃ k v, o = .clear k ∧ put = some (k, v))
    (hputs : ∀ m₀, Alters put m₀ m' → Leads m₀ puts m') (hlate : ∀ o ∈ late, o.Does m' m') :
    Leads m (late ++ (puts ++ (anew ++ looks))) m' := by
  refine Leads.trans ?_ (leads_same hlate)
  cases anew with
  | nil => exact (leads_same hlooks).trans (hputs m h)
  | cons first rest =>
      obtain ⟨k, v, _, rfl⟩ := hanew first List.mem_cons_self
      have hclears : ∀ o ∈ first :: rest, o.Does (update m k none) (update m k none) := by
        intro o ho
        obtain ⟨k', v', rfl, hk'⟩ := hanew o ho
        cases hk'
        exact ⟨.refl _, update_self ..⟩
      have hclear := ((leads_same hlooks).forget (forgets_clear m k)).trans (leads_same hclears)
      exact hclear.trans (hputs _ (h.of_update none))

/-- All operations that take effect in a step can be put in an order. -/
theorem Alters.arrange {op : T → Op K V} {L : List T} (h : Alters put m m')
    (hput : ∀ k v, put = some (k, v) → ∃ a ∈ L, op a = .put k v)
    (hops : ∀ a ∈ L, (op a).TakesEffect put m m')
    (hone : ∀ a ∈ L, ∀ b ∈ L, (op a).IsPut → (op b).IsPut → a = b) (hnodup : L.Nodup) :
    ∃ order : List T, order.Perm L ∧ Leads m (order.map op) m' := by
  obtain ⟨puts, others, hL, hputs, hothers⟩ := exists_split (fun a => (op a).IsPut) L
  obtain ⟨late, early, hsplit, hlate, hearly⟩ :=
    exists_split (fun a => ∃ k, op a = .clear k ∧ m k ≠ none ∧ m' k = none) others
  obtain ⟨anew, looks, hsplit', hanew, hlooks⟩ :=
    exists_split (fun a => ∃ k, op a = .clear k ∧ m k ≠ none) early
  have hL' : ∀ a, a ∈ puts ∨ a ∈ others → a ∈ L := fun a ha =>
    hL.mem_iff.mp (List.mem_append.mpr ha)
  have hothers' : ∀ a, a ∈ late ∨ a ∈ early → a ∈ others := fun a ha =>
    hsplit.mem_iff.mp (List.mem_append.mpr ha)
  have hearly' : ∀ a, a ∈ anew ∨ a ∈ looks → a ∈ early := fun a ha =>
    hsplit'.mem_iff.mp (List.mem_append.mpr ha)
  have hputs' : ∀ k v, put = some (k, v) → ∃ a ∈ puts, op a = .put k v := by
    intro k v hkv
    obtain ⟨a, ha, hop⟩ := hput k v hkv
    refine ⟨a, (List.mem_append.mp (hL.mem_iff.mpr ha)).resolve_right fun hother => ?_, hop⟩
    exact hothers a hother (hop ▸ trivial)
  refine ⟨late ++ (puts ++ (anew ++ looks)), ?_, ?_⟩
  · calc (late ++ (puts ++ (anew ++ looks))).Perm (puts ++ (late ++ (anew ++ looks))) :=
          List.perm_append_comm_assoc ..
      List.Perm _ (puts ++ others) := ((hsplit'.append_left late).trans hsplit).append_left puts
      List.Perm _ L := hL
  rw [List.map_append, List.map_append, List.map_append]
  refine h.leads (fun o ho => ?looks) (fun o ho => ?anew) (fun m₀ halters => ?puts)
    fun o ho => ?late
  case looks =>
    obtain ⟨a, ha, rfl⟩ := List.mem_map.mp ho
    have hother := hothers' a (Or.inr (hearly' a (Or.inr ha)))
    refine (hops a (hL' a (Or.inr hother))).before (hothers a hother) fun k hop => ?_
    by_contra hk
    exact hlooks a ha ⟨k, hop, hk⟩
  case anew =>
    obtain ⟨a, ha, rfl⟩ := List.mem_map.mp ho
    obtain ⟨k, hop, hk⟩ := hanew a ha
    have hmem := hearly' a (Or.inl ha)
    have heffect := hops a (hL' a (Or.inr (hothers' a (Or.inr hmem))))
    rw [hop] at heffect
    rcases heffect with hnone | hnone | ⟨v, hv⟩
    · exact absurd hnone hk
    · exact absurd ⟨k, hop, hk, hnone⟩ (hearly a hmem)
    · exact ⟨k, v, hop, hv⟩
  case puts =>
    exact halters.puts hputs'
      (fun a ha => (hops a (hL' a (Or.inl ha))).of_put (hputs a ha))
      (fun a ha b hb => hone a (hL' a (Or.inl ha)) b (hL' b (Or.inl hb)) (hputs a ha) (hputs b hb))
      (List.Nodup.of_append_left (hL.nodup_iff.mpr hnodup))
  case late =>
    obtain ⟨a, ha, rfl⟩ := List.mem_map.mp ho
    obtain ⟨k, hop, _, hk⟩ := hlate a ha
    rw [hop]
    exact ⟨.refl m', hk⟩

/-! ## Operations in the steps of a run -/

section Points

variable {op : T → Op K V} {point : T → Nat} {view : S → K → Option V} {put : S → Option (K × V)}
  {past : List S} {L : List T}

/-- The map after the last step of which `later` are the steps that come after it. -/
def next (view : S → K → Option V) (later : List S) (m : K → Option V) : K → Option V :=
  (later.getLast?.map view).getD m

omit [DecidableEq K] in
theorem next_cons (x : S) (later : List S) :
    next view (x :: later) m = next view later (view x) := by
  unfold next
  rw [List.getLast?_cons]
  cases later.getLast? <;> rfl

/-- Every operation of `L` takes effect in the step of a run that is its point, and every value that
is put is put by one of them. The steps are latest first, and `m` is the map after them. -/
structure Points (op : T → Op K V) (point : T → Nat) (view : S → K → Option V)
    (put : S → Option (K × V)) (past : List S) (m : K → Option V) (L : List T) : Prop where
  alters : ∀ later x earlier, past = later ++ x :: earlier →
    Alters (put x) (view x) (next view later m)
  puts : ∀ later x earlier k v, past = later ++ x :: earlier → put x = some (k, v) →
    ∃ a ∈ L, point a = earlier.length ∧ op a = .put k v
  effect : ∀ a ∈ L, ∃ later x earlier, past = later ++ x :: earlier ∧ point a = earlier.length ∧
    (op a).TakesEffect (put x) (view x) (next view later m)
  one : ∀ a ∈ L, ∀ b ∈ L, (op a).IsPut → (op b).IsPut → point a = point b → a = b
  nodup : L.Nodup

/-- The operations before the last step. -/
theorem Points.before {x : S} {earlier : List S} {now before : List T}
    (h : Points op point view put (x :: earlier) m L) (hL : (now ++ before).Perm L)
    (hnow : ∀ a ∈ now, point a = earlier.length)
    (hbefore : ∀ a ∈ before, point a ≠ earlier.length) :
    Points op point view put earlier (view x) before where
  alters later y old heq := by
    rw [← next_cons]
    exact h.alters (x :: later) y old (heq ▸ rfl)
  puts later y old k v heq hput := by
    obtain ⟨a, ha, hpoint, hop⟩ := h.puts (x :: later) y old k v (heq ▸ rfl) hput
    refine ⟨a, (List.mem_append.mp (hL.mem_iff.mpr ha)).resolve_left fun hmem => ?_, hpoint, hop⟩
    have := (hnow a hmem).symm.trans hpoint
    rw [heq, List.length_append, List.length_cons] at this
    omega
  effect a ha := by
    obtain ⟨later, y, old, heq, hpoint, heffect⟩ :=
      h.effect a (hL.mem_iff.mp (List.mem_append_right _ ha))
    cases later with
    | nil =>
        cases heq
        exact absurd hpoint (hbefore a ha)
    | cons z later =>
        cases heq
        rw [next_cons] at heffect
        exact ⟨later, y, old, rfl, hpoint, heffect⟩
  one a ha b hb := h.one a (hL.mem_iff.mp (List.mem_append_right _ ha)) b
    (hL.mem_iff.mp (List.mem_append_right _ hb))
  nodup := List.Nodup.of_append_right (hL.nodup_iff.mpr h.nodup)

/-- Operations with points in a run can be told one after the other, in the order of the points. -/
theorem Points.order (h : Points op point view put past m L) :
    ∃ order : List T, order.Perm L ∧ order.Pairwise (fun a b => point b ≤ point a) ∧
      Leads (next view past m) (order.map op) m := by
  induction past generalizing m L with
  | nil =>
      have hnil : L = [] := List.eq_nil_iff_forall_not_mem.mpr fun a ha => by
        obtain ⟨_, _, _, heq, _⟩ := h.effect a ha
        exact List.append_ne_nil_of_right_ne_nil _ (List.cons_ne_nil _ _) heq.symm
      exact ⟨[], hnil ▸ .refl _, .nil, .refl⟩
  | cons x earlier ih =>
      obtain ⟨now, before, hL, hnow, hbefore⟩ :=
        exists_split (fun a => point a = earlier.length) L
      have hpoints := h.before hL hnow hbefore
      obtain ⟨old, hold, hsorted, hleads⟩ := ih hpoints
      have hmem : ∀ {a}, a ∈ now → a ∈ L := fun ha => hL.mem_iff.mp (List.mem_append_left _ ha)
      have heffect : ∀ a ∈ now, (op a).TakesEffect (put x) (view x) m := by
        intro a ha
        obtain ⟨later, y, old, heq, hpoint, heffect⟩ := h.effect a (hmem ha)
        cases later with
        | nil =>
            cases heq
            exact heffect
        | cons z later =>
            have hlength := congrArg List.length (List.cons.inj heq).2
            rw [List.append_eq, List.length_append, List.length_cons, ← hpoint,
              hnow a ha] at hlength
            omega
      have hput : ∀ k v, put x = some (k, v) → ∃ a ∈ now, op a = .put k v := by
        intro k v hkv
        obtain ⟨a, ha, hpoint, hop⟩ := h.puts [] x earlier k v rfl hkv
        refine ⟨a, (List.mem_append.mp (hL.mem_iff.mpr ha)).resolve_right fun hmem => ?_, hop⟩
        exact hbefore a hmem hpoint
      obtain ⟨order, horder, hlast⟩ := Alters.arrange (h.alters [] x earlier rfl) hput heffect
        (fun a ha b hb hisput hisput' => h.one a (hmem ha) b (hmem hb) hisput hisput'
          ((hnow a ha).trans (hnow b hb).symm))
        (List.Nodup.of_append_left (hL.nodup_iff.mpr h.nodup))
      refine ⟨order ++ old, (horder.append hold).trans hL, ?_, ?_⟩
      · refine List.pairwise_append.mpr ⟨?_, hsorted, fun a ha b hb => ?_⟩
        · refine List.pairwise_of_forall_mem_list fun a ha b hb => Nat.le_of_eq ?_
          rw [hnow a (horder.mem_iff.mp ha), hnow b (horder.mem_iff.mp hb)]
        · obtain ⟨_, _, _, rfl, hpoint, _⟩ := hpoints.effect b (hold.mem_iff.mp hb)
          rw [hnow a (horder.mem_iff.mp ha), hpoint, List.length_append, List.length_cons]
          omega
      · rw [next_cons, List.map_append]
        exact hleads.trans hlast

end Points

end Changes

end LossyMap
