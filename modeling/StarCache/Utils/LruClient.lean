import StarCache.Utils.LruCalls

/-!
# Clients of the container on the heap

A client holds handles, gets evicted entries to free, and calls the container in any order;
`malloc` may return any address that is not in use. Such a client is a history of the container.
-/

namespace StarCache

open LRUContainer

structure LRUClient (K : Type) where
  shard : LRUShard K
  /-- The handles that it holds, with multiplicity. -/
  out : List Nat
  /-- Returned by an eviction and not freed yet. -/
  evicted : List Nat
  /-- The keys it has inserted, latest first. -/
  inserted : List K

namespace LRUClient

variable {K : Type} [DecidableEq K]

inductive Call (K : Type)
  /-- The address is what `malloc` returns. -/
  | insert (key : K) (charge e : Nat)
  | lookup (key : K)
  | release (e : Nat)
  | erase (key : K)
  | evict (charge : Nat)
  | free (e : Nat)
  | prune

namespace Call

def exec (hash : K → Nat) : Call K → LRUClient K → Option (LRUClient K)
  | .insert key charge e, cl =>
      (cl.shard.insert key (hash key) charge e).map fun shard =>
        { cl with shard, out := e :: cl.out, inserted := key :: cl.inserted }
  | .lookup key, cl =>
      (cl.shard.lookup key (hash key)).map fun r =>
        { cl with shard := r.2, out := r.1.toList ++ cl.out }
  | .release e, cl =>
      (cl.shard.release e).map fun shard => { cl with shard, out := cl.out.erase e }
  | .erase key, cl => (cl.shard.erase key (hash key)).map fun shard => { cl with shard }
  | .evict charge, cl =>
      (cl.shard.evict charge).map fun r => { cl with shard := r.2, evicted := r.1 ++ cl.evicted }
  | .free e, cl =>
      (cl.shard.free e).map fun shard => { cl with shard, evicted := cl.evicted.erase e }
  | .prune, cl => cl.shard.prune.map fun shard => { cl with shard }

/-- A handle is released as often as it was handed out, what an eviction returned is freed once,
and the counters of fixed width have room. -/
def Legal : Call K → LRUClient K → Prop
  | .insert _ charge e, cl =>
      ¬ cl.shard.Live e ∧ cl.shard.usage + charge < 2 ^ 64 ∧ cl.shard.table.elems < 2 ^ 31
  | .lookup _, cl => cl.out.length + 2 < 2 ^ 32
  | .release e, cl => e ∈ cl.out
  | .free e, cl => e ∈ cl.evicted
  | .erase _, _ => True
  | .evict _, _ => True
  | .prune, _ => True

/-- The call in a history, whose handles have the numbers `name`. -/
def onHistory (name : Nat → Nat) : Call K → History K → History K
  | .insert key charge _, h =>
      { h with
        container := (h.container.insert key charge).2
        out := (h.container.insert key charge).1 :: h.out
        freed := h.container.replaceFrees key ++ h.freed }
  | .lookup key, h =>
      { h with
        container := (h.container.lookup key).2
        out := (h.container.lookup key).1.toList ++ h.out }
  | .release e, h =>
      { h with
        container := h.container.release (name e)
        out := h.out.erase (name e)
        freed := h.container.releaseFrees (name e) ++ h.freed
        released := name e :: h.released }
  | .erase key, h =>
      { h with
        container := h.container.erase key
        freed := h.container.replaceFrees key ++ h.freed }
  | .evict charge, h =>
      { h with
        container := (evictLoop charge h.container.lru 0 h.container).2
        evicted := (evictLoop charge h.container.lru 0 h.container).1 ++ h.evicted }
  | .free e, h => { h with evicted := h.evicted.erase (name e), freed := name e :: h.freed }
  | .prune, h =>
      { h with container := h.container.prune.2, freed := h.container.prune.1 ++ h.freed }

def inserts : Call K → List K
  | .insert key _ _ => [key]
  | _ => []

/-- An address that `malloc` returns gets the next number. -/
def rename (name : Nat → Nat) (allocated : Nat) : Call K → Nat → Nat
  | .insert _ _ e => Function.update name e allocated
  | _ => name

end Call

/-- The clients that calls lead to. -/
inductive Reachable [Inhabited K] (hash : K → Nat) : LRUClient K → Prop
  | start {shard : LRUShard K} : LRUShard.create = some shard → Reachable hash ⟨shard, [], [], []⟩
  | call {cl cl' : LRUClient K} {call : Call K} : Reachable hash cl → call.Legal cl →
      call.exec hash cl = some cl' → Reachable hash cl'

/-- The client is the history `h`. -/
structure Sim (hash : K → Nat) (name : Nat → Nat) (cl : LRUClient K) (h : History K) : Prop where
  shard : LRUShard.Sim hash name cl.shard h.container h.freed
  out : h.out = cl.out.map name
  outLive : ∀ e ∈ cl.out, cl.shard.Live e
  evicted : h.evicted = cl.evicted.map name
  evictedLive : ∀ e ∈ cl.evicted, cl.shard.Live e
  inserted : cl.inserted.reverse =
    (List.range h.container.allocated).map fun x => (h.container.handles x).key

/-- What is held outside of the container is not freed. -/
theorem kept {h : History K} (hinv : h.Inv) {x : Nat} (hx : x ∈ h.out ∨ x ∈ h.evicted) :
    x < h.container.allocated ∧ x ∉ h.freed := by
  have hgone := hinv.accounted.mem_gone
  cases hx with
  | inl hout =>
      obtain ⟨hlt, hrefs⟩ := hinv.container.held_refs_pos hout
      refine ⟨hlt, fun hfreed => ?_⟩
      have := ((hgone x).mp (List.mem_append_right _ hfreed)).2
      omega
  | inr hevicted =>
      have hnodup := hinv.accounted.nodup
      rw [List.nodup_append] at hnodup
      exact ⟨((hgone x).mp (List.mem_append_left _ hevicted)).1,
        fun hfreed => hnodup.2.2 x hevicted x hfreed rfl⟩

section Step

variable {hash : K → Nat} {name : Nat → Nat} {cl : LRUClient K} {h : History K}

/-- The evictions of a list of entries change no key. -/
theorem foldl_evictOneEntry_same (es : List Nat) (c : LRUContainer K) :
    (es.foldl evictOneEntry c).allocated = c.allocated ∧
      ∀ x, ((es.foldl evictOneEntry c).handles x).key = (c.handles x).key := by
  induction es generalizing c with
  | nil => exact ⟨rfl, fun _ => rfl⟩
  | cons e es ih =>
      obtain ⟨halloc, hkeys⟩ := ih (c.evictOneEntry e)
      exact ⟨halloc, fun x => (hkeys x).trans (unref_key c e x false)⟩

/-- No call but an insertion adds a handle, and no call changes a key. -/
theorem Call.onHistory_keys (hinv : h.Inv) (call : Call K) :
    (List.range (call.onHistory name h).container.allocated).map
        (fun x => ((call.onHistory name h).container.handles x).key) =
      (List.range h.container.allocated).map (fun x => (h.container.handles x).key) ++
        call.inserts := by
  have hsame : ∀ c : LRUContainer K, c.allocated = h.container.allocated →
      (∀ x, (c.handles x).key = (h.container.handles x).key) →
      (List.range c.allocated).map (fun x => (c.handles x).key) =
        (List.range h.container.allocated).map (fun x => (h.container.handles x).key) ++ [] := by
    intro c halloc hkeys
    rw [List.append_nil, halloc]
    exact List.map_congr_left fun x _ => hkeys x
  cases call with
  | insert key charge e =>
      have hfresh : ∀ c : LRUContainer K, c.allocated = h.container.allocated + 1 →
          (∀ x, (c.handles x).key = (Function.update h.container.handles h.container.allocated
            ⟨key, charge, true, 2⟩ x).key) →
          (List.range c.allocated).map (fun x => (c.handles x).key) =
            (List.range h.container.allocated).map (fun x => (h.container.handles x).key) ++ [key] := by
        intro c halloc hkeys
        rw [halloc, List.range_succ, List.map_append, List.map_singleton, hkeys, Function.update_self]
        refine congrArg (· ++ [key]) (List.map_congr_left fun x hx => ?_)
        rw [hkeys, Function.update_of_ne (Nat.ne_of_lt (List.mem_range.mp hx))]
      refine hfresh (h.container.insert key charge).2 ?_ fun x => ?_
      · unfold LRUContainer.insert
        dsimp only
        split
        next => rfl
        next => split <;> rfl
      · unfold LRUContainer.insert
        dsimp only
        split
        next => rfl
        next =>
          split
          · exact unref_key _ _ x false
          · exact unref_key _ _ x false
  | lookup key =>
      refine hsame (h.container.lookup key).2 ?_ fun x => ?_
      · unfold LRUContainer.lookup
        dsimp only
        split <;> rfl
      · unfold LRUContainer.lookup
        dsimp only
        split
        next => rfl
        next e _ =>
          dsimp only
          rw [Function.update_apply]
          split
          next heq => rw [heq]
          next => rfl
  | release e =>
      refine hsame (h.container.release (name e)) ?_ fun x => ?_
      · unfold LRUContainer.release
        dsimp only
        split
        next => rfl
        next => split <;> rfl
      · have hkey := unref_key h.container (name e) x (h.container.handles (name e)).valid
        unfold LRUContainer.release
        dsimp only
        split
        next => exact hkey
        next =>
          split
          · exact hkey
          · exact hkey
  | erase key =>
      refine hsame (h.container.erase key) ?_ fun x => ?_
      · unfold LRUContainer.erase
        split
        next => rfl
        next =>
          dsimp only
          split <;> rfl
      · unfold LRUContainer.erase
        split
        next => rfl
        next e _ =>
          have hkey := unref_key h.container e x false
          dsimp only
          split
          · exact hkey
          · exact hkey
  | evict charge =>
      obtain ⟨_, hkeys, _⟩ :=
        LRUContainer.Inv.evictLoop charge _ 0 _ hinv.container rfl
      obtain ⟨_, _, _, _, hevicted, _⟩ :=
        evictLoop_shortest charge _ 0 hinv.container hinv.accounted rfl
      exact hsame _ hevicted.allocated hkeys
  | free e => exact hsame h.container rfl fun _ => rfl
  | prune =>
      obtain ⟨halloc, hkeys⟩ := foldl_evictOneEntry_same h.container.lru h.container
      exact hsame h.container.prune.2 halloc hkeys

/-- What was known before and is not freed is alive. -/
theorem Sim.after {name' : Nat → Nat} {cl' : LRUClient K} {h' : History K} {known : Nat → Prop}
    (hinv' : h'.Inv) (hshard : LRUShard.Sim hash name' cl'.shard h'.container h'.freed)
    (hinj : ∀ x y, known x → known y → name' x = name' y → x = y)
    (hback : ∀ x, cl'.shard.Live x → known x) (hout : h'.out = cl'.out.map name')
    (hevicted : h'.evicted = cl'.evicted.map name')
    (hknown : ∀ x, x ∈ cl'.out ∨ x ∈ cl'.evicted → known x)
    (hinserted : cl'.inserted.reverse =
      (List.range h'.container.allocated).map fun x => (h'.container.handles x).key) :
    Sim hash name' cl' h' := by
  have hlive : ∀ x, x ∈ cl'.out ∨ x ∈ cl'.evicted → cl'.shard.Live x := by
    intro x hx
    have hheld : name' x ∈ h'.out ∨ name' x ∈ h'.evicted := by
      rw [hout, hevicted]
      exact hx.imp List.mem_map_of_mem List.mem_map_of_mem
    obtain ⟨hlt, hnot⟩ := kept hinv' hheld
    obtain ⟨y, hy, heq⟩ := hshard.onto _ hlt hnot
    exact hinj y x (hback y hy) (hknown x hx) heq ▸ hy
  exact ⟨hshard, hout, fun x hx => hlive x (Or.inl hx), hevicted, fun x hx => hlive x (Or.inr hx),
    hinserted⟩

/-- Each legal call has an outcome, and it is a step of the history. -/
theorem Sim.step (hsim : Sim hash name cl h) (hinv : h.Inv) {call : Call K}
    (hlegal : call.Legal cl) :
    ∃ cl', call.exec hash cl = some cl' ∧ History.Next h (call.onHistory name h) ∧
      Sim hash (call.rename name h.container.allocated) cl' (call.onHistory name h) := by
  obtain ⟨hshard, hout, houtLive, hevicted, hevictedLive, hinserted⟩ := hsim
  have hc := hinv.container
  have hacc := hinv.accounted
  have hheld : ∀ x, x ∈ cl.out ∨ x ∈ cl.evicted → cl.shard.Live x := fun x hx =>
    hx.elim (houtLive x) (hevictedLive x)
  have hkeys := @Call.onHistory_keys K _ name h hinv call
  rw [← hinserted] at hkeys
  have hmapErase : ∀ {l : List Nat} {e : Nat}, (∀ x ∈ l, cl.shard.Live x) → e ∈ l →
      (l.map name).erase (name e) = (l.erase e).map name := by
    intro l e hl he
    exact (map_erase_of_injOn fun x hx heq => hshard.inj x e (hl x hx) (hl e he) heq).symm
  cases call with
  | insert key charge e =>
      obtain ⟨hfresh, hfits, hroom⟩ := hlegal
      have hnext := History.Next.insert h key charge
      have hold : ∀ x ∈ h.freed, x < h.container.allocated := fun x hx =>
        ((hacc.mem_gone x).mp (List.mem_append_right _ hx)).1
      have husage := hshard.usage
      obtain ⟨s', hrun, hshard', hback⟩ := hshard.insert hc hacc hfresh hold hroom key charge (by omega)
      obtain ⟨halloc, halive⟩ := hshard.allocate hfresh hold key charge
      have hne : ∀ x, cl.shard.Live x → x ≠ e := fun x hx heq => hfresh (heq ▸ hx)
      have hname : ∀ {l : List Nat}, (∀ x ∈ l, cl.shard.Live x) →
          l.map name = l.map (Function.update name e h.container.allocated) := fun hl =>
        List.map_congr_left fun x hx => (Function.update_of_ne (hne x (hl x hx)) _ _).symm
      refine ⟨_, Option.map_eq_some_iff.mpr ⟨s', hrun, rfl⟩, hnext,
        Sim.after (hnext.inv hinv) hshard' halloc.inj ?_ ?_ ?_ ?_ ?_⟩
      · exact fun x hx => (halive x).mpr (hback x hx)
      · have hnew : (h.container.insert key charge).1 = h.container.allocated := (hc.insert key charge).1
        dsimp only [Call.onHistory, Call.rename]
        rw [hnew, List.map_cons, Function.update_self, hout, hname houtLive]
      · dsimp only [Call.onHistory, Call.rename]
        rw [hevicted, hname hevictedLive]
      · intro x hx
        refine (halive x).mpr ?_
        dsimp only at hx
        rw [List.mem_cons] at hx
        rcases hx with (heq | hx) | hx
        · exact Or.inr heq
        · exact Or.inl (houtLive x hx)
        · exact Or.inl (hevictedLive x hx)
      · rw [List.reverse_cons]
        exact hkeys.symm
  | lookup key =>
      have hnext := History.Next.lookup h key
      have hsmall : ∀ e, h.container.table.lookup key = some e →
          (h.container.handles e).refs + 1 < 2 ^ 32 := by
        intro e hk
        have hcount := (hc.entry key e hk).2.2
        have hle := List.count_le_length (a := e) (l := h.out)
        have hlength : h.out.length = cl.out.length := by rw [hout, List.length_map]
        unfold Call.Legal at hlegal
        omega
      obtain ⟨found, s', hrun, hfound, hfoundLive, hshard', hback⟩ := hshard.lookup hc key hsmall
      refine ⟨_, Option.map_eq_some_iff.mpr ⟨_, hrun, rfl⟩, hnext,
        Sim.after (hnext.inv hinv) hshard' hshard.inj (fun x hx => (hback x).mp hx) ?_ hevicted ?_ ?_⟩
      · dsimp only [Call.onHistory, Call.rename]
        rw [← hfound, hout, List.map_append]
        cases found with
        | none => rfl
        | some e => rfl
      · intro x hx
        dsimp only at hx
        rw [List.mem_append, Option.mem_toList] at hx
        rcases hx with (hx | hx) | hx
        · exact hfoundLive x hx
        · exact houtLive x hx
        · exact hevictedLive x hx
      · exact (hkeys.trans (List.append_nil _)).symm
  | release e =>
      have hmem : name e ∈ h.out := hout ▸ List.mem_map_of_mem hlegal
      have hnext := History.Next.release h (name e) hmem
      obtain ⟨s', hrun, hshard', hback⟩ := hshard.release hc hacc (houtLive e hlegal) hmem
      refine ⟨_, Option.map_eq_some_iff.mpr ⟨s', hrun, rfl⟩, hnext,
        Sim.after (hnext.inv hinv) hshard' hshard.inj hback ?_ hevicted ?_ ?_⟩
      · dsimp only [Call.onHistory, Call.rename]
        rw [hout]
        exact hmapErase houtLive hlegal
      · exact fun x hx => hheld x (hx.imp List.mem_of_mem_erase id)
      · exact (hkeys.trans (List.append_nil _)).symm
  | erase key =>
      have hnext := History.Next.erase h key
      obtain ⟨s', hrun, hshard', hback⟩ := hshard.erase hc hacc key
      exact ⟨_, Option.map_eq_some_iff.mpr ⟨s', hrun, rfl⟩, hnext,
        Sim.after (hnext.inv hinv) hshard' hshard.inj hback hout hevicted hheld
          (hkeys.trans (List.append_nil _)).symm⟩
  | evict charge =>
      have hnext := History.Next.evict h charge
      obtain ⟨evicted, s', hrun, hnames, hlive, hshard', hback⟩ := hshard.evict hc hacc charge
      refine ⟨_, Option.map_eq_some_iff.mpr ⟨_, hrun, rfl⟩, hnext,
        Sim.after (hnext.inv hinv) hshard' hshard.inj (fun x hx => (hback x).mp hx) hout ?_ ?_ ?_⟩
      · dsimp only [Call.onHistory, Call.rename]
        rw [← hnames, hevicted, List.map_append]
      · intro x hx
        dsimp only at hx
        rw [List.mem_append] at hx
        rcases hx with hx | hx | hx
        · exact houtLive x hx
        · exact hlive x hx
        · exact hevictedLive x hx
      · exact (hkeys.trans (List.append_nil _)).symm
  | free e =>
      have hmem : name e ∈ h.evicted := hevicted ▸ List.mem_map_of_mem hlegal
      have hnext := History.Next.free h (name e) hmem
      obtain ⟨s', hrun, hshard', hback⟩ := hshard.freeGone hc hacc (hevictedLive e hlegal)
        (List.mem_append_left _ hmem)
      refine ⟨_, Option.map_eq_some_iff.mpr ⟨s', hrun, rfl⟩, hnext,
        Sim.after (hnext.inv hinv) hshard' hshard.inj (fun x hx => ((hback x).mp hx).1) hout ?_ ?_ ?_⟩
      · dsimp only [Call.onHistory, Call.rename]
        rw [hevicted]
        exact hmapErase hevictedLive hlegal
      · exact fun x hx => hheld x (hx.imp id List.mem_of_mem_erase)
      · exact (hkeys.trans (List.append_nil _)).symm
  | prune =>
      have hnext := History.Next.prune h
      obtain ⟨s', hrun, hshard', hback⟩ := hshard.prune hc hacc
      exact ⟨_, Option.map_eq_some_iff.mpr ⟨s', hrun, rfl⟩, hnext,
        Sim.after (hnext.inv hinv) hshard' hshard.inj hback hout hevicted hheld
          (hkeys.trans (List.append_nil _)).symm⟩

/-- The handles that are alive, one for each entry that is not freed. -/
theorem Sim.alive {name : Nat → Nat} {h : History K} (hsim : Sim hash name cl h) :
    ∃ live : List Nat, live.Nodup ∧ (∀ e, e ∈ live ↔ cl.shard.Live e) ∧
      (live.map name).Perm ((List.range h.container.allocated).filter (· ∉ h.freed)) := by
  have hshard := hsim.shard
  have hex : ∀ x ∈ (List.range h.container.allocated).filter (· ∉ h.freed),
      ∃ e, cl.shard.Live e ∧ name e = x := by
    intro x hx
    rw [List.mem_filter, List.mem_range, decide_eq_true_eq] at hx
    exact hshard.onto x hx.1 hx.2
  choose! addr haddr using hex
  have hnodup : ((List.range h.container.allocated).filter (· ∉ h.freed)).Nodup :=
    List.nodup_range.filter _
  refine ⟨((List.range h.container.allocated).filter (· ∉ h.freed)).map addr, ?_, fun e => ?_, ?_⟩
  · refine List.Nodup.map_on (fun x hx y hy hxy => ?_) hnodup
    rw [← (haddr x hx).2, ← (haddr y hy).2, hxy]
  · rw [List.mem_map]
    constructor
    · rintro ⟨x, hx, rfl⟩
      exact (haddr x hx).1
    · intro hlive
      obtain ⟨hlt, hnot⟩ := hshard.alive e hlive
      have hmem : name e ∈ (List.range h.container.allocated).filter (· ∉ h.freed) := by
        rw [List.mem_filter, List.mem_range, decide_eq_true_eq]
        exact ⟨hlt, hnot⟩
      obtain ⟨haddrLive, heq⟩ := haddr _ hmem
      exact ⟨name e, hmem, hshard.inj _ e haddrLive hlive heq⟩
  · rw [List.map_map]
    refine List.Perm.of_eq ((List.map_congr_left fun x hx => ?_).trans (List.map_id _))
    exact (haddr x hx).2

/-- Every inserted key has been given to its deleter, or belongs to a handle that is alive. -/
theorem Sim.accounted (hsim : Sim hash name cl h) (hinv : h.Inv) :
    ∃ live : List Nat, live.Nodup ∧ (∀ e, e ∈ live ↔ cl.shard.Live e) ∧
      cl.inserted.Perm (cl.shard.deleted ++ live.map cl.shard.table.key) := by
  obtain ⟨live, hnodup, hlive, hnames⟩ := hsim.alive
  refine ⟨live, hnodup, hlive, ?_⟩
  have hkeys : live.map cl.shard.table.key = (live.map name).map fun x => (h.container.handles x).key := by
    rw [List.map_map]
    exact List.map_congr_left fun e he => hsim.shard.key e ((hlive e).mp he)
  have hfreed : h.freed.Nodup := (List.nodup_append.mp hinv.accounted.nodup).2.1
  have hsplit : (List.range h.container.allocated).Perm (h.freed ++ live.map name) := by
    have hpart := (List.filter_append_perm (fun x => decide (x ∈ h.freed))
      (List.range h.container.allocated)).symm
    have hin : ((List.range h.container.allocated).filter fun x => decide (x ∈ h.freed)).Perm h.freed := by
      rw [List.perm_ext_iff_of_nodup (List.nodup_range.filter _) hfreed]
      intro x
      rw [List.mem_filter, List.mem_range, decide_eq_true_eq]
      refine ⟨And.right, fun hx => ⟨?_, hx⟩⟩
      exact ((hinv.accounted.mem_gone x).mp (List.mem_append_right _ hx)).1
    refine hpart.trans (hin.append ?_)
    have hsame : (fun x => !decide (x ∈ h.freed)) = fun x => decide (x ∉ h.freed) := by
      funext x
      simp
    rw [hsame]
    exact hnames.symm
  refine (List.reverse_perm _).symm.trans ?_
  rw [hsim.inserted]
  refine (hsplit.map _).trans ?_
  rw [List.map_append, hkeys]
  exact hsim.shard.deleted.symm.append_right _

/-- A handle is alive as long as the table, a holder or the receiver of an eviction refers to it. -/
theorem Sim.live_iff (hsim : Sim hash name cl h) (hinv : h.Inv) (e : Nat) :
    cl.shard.Live e ↔ (∃ key, cl.shard.table.lookup key (hash key) = some (some e)) ∨
      e ∈ cl.out ∨ e ∈ cl.evicted := by
  have hshard := hsim.shard
  have hc := hinv.container
  obtain ⟨m, hrep, hlookup, hmlive⟩ := hshard.table
  constructor
  · intro hlive
    obtain ⟨hlt, hnot⟩ := hshard.alive e hlive
    have hback : ∀ {l : List Nat}, (∀ x ∈ l, cl.shard.Live x) → name e ∈ l.map name → e ∈ l := by
      intro l hl hmem
      obtain ⟨x, hx, heq⟩ := List.mem_map.mp hmem
      exact hshard.inj x e (hl x hx) hlive heq ▸ hx
    by_cases hevicted : name e ∈ h.evicted
    · rw [hsim.evicted] at hevicted
      exact Or.inr (Or.inr (hback hsim.evictedLive hevicted))
    · by_cases hin : ∃ key, h.container.table.lookup key = some (name e)
      · obtain ⟨key, hk⟩ := hin
        rw [hlookup] at hk
        obtain ⟨x, hx, heq⟩ := Option.map_eq_some_iff.mp hk
        rw [hshard.inj x e (hmlive key x hx) hlive heq] at hx
        refine Or.inl ⟨key, ?_⟩
        rw [HandleTable.lookup_spec hrep, hx]
      · push Not at hin
        have hrefs : (h.container.handles (name e)).refs ≠ 0 := by
          intro hzero
          cases List.mem_append.mp ((hinv.accounted.mem_gone _).mpr ⟨hlt, hzero⟩) with
          | inl hmem => exact hevicted hmem
          | inr hmem => exact hnot hmem
        rw [(hc.stale _ hlt hin).2, ← Nat.pos_iff_ne_zero, List.count_pos_iff, hsim.out] at hrefs
        exact Or.inr (Or.inl (hback hsim.outLive hrefs))
  · rintro (⟨key, hk⟩ | hout | hevicted)
    · rw [HandleTable.lookup_spec hrep] at hk
      exact hmlive key e (Option.some.inj hk)
    · exact hsim.outLive e hout
    · exact hsim.evictedLive e hevicted

end Step

/-! ## Every client -/

section Reachable

variable [Inhabited K] {hash : K → Nat} {cl : LRUClient K}

theorem create_sim : ∃ shard : LRUShard K, LRUShard.create = some shard ∧
    Sim hash id ⟨shard, [], [], []⟩ (History.start : History K) := by
  obtain ⟨table, hcreate, hrep⟩ := @HandleTable.create_spec K _ hash _
  refine ⟨_, Option.map_eq_some_iff.mpr ⟨table, hcreate, rfl⟩, ?_⟩
  have hnone : ∀ e : Nat, (if Node.handle e = Node.lru then
      some (⟨some .lru, some .lru⟩ : Links Node) else none) = none := fun e => if_neg Node.noConfusion
  have hdead : ∀ e : Nat, ¬ (if Node.handle e = Node.lru then
      some (⟨some .lru, some .lru⟩ : Links Node) else none).isSome := by
    intro e
    rw [hnone]
    exact Bool.noConfusion
  refine ⟨⟨?_, ?_, ?_, ?_, ?_, ?_, ⟨∅, hrep, fun k => ?_, fun k e he => ?_⟩, ⟨[], ?_, rfl⟩, ?_, rfl,
    Nat.two_pow_pos 64, (MachineInt.u64_of_lt (Nat.two_pow_pos 64)).symm, List.Perm.refl _⟩, rfl, by simp, rfl, by simp, rfl⟩
  · exact fun e he => absurd he (hdead e)
  · exact fun e _ he => absurd he (hdead e)
  · exact fun x hx => absurd hx (Nat.not_lt_zero x)
  · exact fun e he => absurd he (hdead e)
  · exact fun e he => absurd he (hdead e)
  · exact fun e he => absurd he (hdead e)
  · rfl
  · cases he
  · exact ⟨by simp, by simp, by simp [Cells.Linked, Cells.next, Cells.prev]⟩
  · exact fun e he => absurd he (hdead e)

theorem Reachable.sim (hreach : Reachable hash cl) :
    ∃ h name, History.Reachable h ∧ Sim hash name cl h := by
  obtain ⟨shard, hcreate, hstart⟩ := @create_sim K _ _ hash
  induction hreach with
  | start hcreate' =>
      rw [hcreate] at hcreate'
      cases hcreate'
      exact ⟨_, id, .refl, hstart⟩
  | call _ hlegal hexec ih =>
      obtain ⟨h, name, hh, hsim⟩ := ih
      obtain ⟨cl', hexec', hnext, hsim'⟩ := hsim.step hh.inv hlegal
      rw [hexec] at hexec'
      cases hexec'
      exact ⟨_, _, hh.tail hnext, hsim'⟩

/-- A client of the heap is a client of the container, call by call: no call reads a freed handle,
follows a null pointer or fails a check, and each returns what the container returns. -/
theorem heap_refines_container (hash : K → Nat) :
    (∃ shard : LRUShard K, LRUShard.create = some shard) ∧
    ∀ cl : LRUClient K, Reachable hash cl → ∃ h name, History.Reachable h ∧ Sim hash name cl h ∧
      ∀ call : Call K, call.Legal cl → ∃ cl', call.exec hash cl = some cl' ∧
        History.Next h (call.onHistory name h) ∧
        Sim hash (call.rename name h.container.allocated) cl' (call.onHistory name h) := by
  obtain ⟨shard, hcreate, _⟩ := @create_sim K _ _ hash
  refine ⟨⟨shard, hcreate⟩, fun cl hreach => ?_⟩
  obtain ⟨h, name, hh, hsim⟩ := hreach.sim
  exact ⟨h, name, hh, hsim, fun call hlegal => hsim.step hh.inv hlegal⟩

/-- One key is inserted, and its handle is held. -/
theorem exists_inserted : ∃ cl : LRUClient Nat, Reachable id cl ∧ cl.inserted = [7] ∧ cl.out = [0] ∧
    cl.evicted = [] := by
  obtain ⟨shard, hcreate, hsim⟩ := @create_sim Nat _ _ id
  have helems : shard.table.elems = 0 := by
    cases hcreate
    rfl
  have hlegal : (Call.insert 7 1 0 : Call Nat).Legal ⟨shard, [], [], []⟩ := by
    refine ⟨fun hlive => ?_, ?_, ?_⟩
    · exact absurd (hsim.shard.alive 0 hlive).1 (Nat.not_lt_zero _)
    · rw [hsim.shard.usage]
      decide
    · rw [helems]
      decide
  obtain ⟨cl, hexec, _, _⟩ := hsim.step History.inv_start hlegal
  refine ⟨cl, .call (.start hcreate) hlegal hexec, ?_⟩
  obtain ⟨_, _, heq⟩ := Option.map_eq_some_iff.mp hexec
  subst heq
  exact ⟨rfl, rfl, rfl⟩

/-- Every inserted key has been given to its deleter once, or belongs to one handle that is alive,
and a handle is alive only while the table, a holder or the receiver of an eviction refers to it. -/
theorem inserted_accounted (hreach : Reachable hash cl) :
    ∃ live : List Nat, live.Nodup ∧ (∀ e, e ∈ live ↔ cl.shard.Live e) ∧
      cl.inserted.Perm (cl.shard.deleted ++ live.map cl.shard.table.key) ∧
      ∀ e, cl.shard.Live e ↔ (∃ key, cl.shard.table.lookup key (hash key) = some (some e)) ∨
        e ∈ cl.out ∨ e ∈ cl.evicted := by
  obtain ⟨h, name, hh, hsim⟩ := hreach.sim
  obtain ⟨live, hnodup, hlive, hperm⟩ := hsim.accounted hh.inv
  exact ⟨live, hnodup, hlive, hperm, hsim.live_iff hh.inv⟩

/-- An entry that is held and in the table. -/
theorem inserted_accounted_held : ∃ cl : LRUClient Nat, cl.inserted = [7] ∧ cl.shard.Live 0 ∧
    ∃ live : List Nat, live.Nodup ∧ (∀ e, e ∈ live ↔ cl.shard.Live e) ∧
      cl.inserted.Perm (cl.shard.deleted ++ live.map cl.shard.table.key) ∧
      ∀ e, cl.shard.Live e ↔ (∃ key, cl.shard.table.lookup key (id key) = some (some e)) ∨
        e ∈ cl.out ∨ e ∈ cl.evicted := by
  obtain ⟨cl, hreach, hinserted, hout, _⟩ := exists_inserted
  obtain ⟨live, hnodup, hmem, hperm, hlive⟩ := inserted_accounted hreach
  have hheld : cl.shard.Live 0 := by
    refine (hlive 0).mpr (Or.inr (Or.inl ?_))
    rw [hout]
    exact List.mem_cons_self
  exact ⟨cl, hinserted, hheld, live, hnodup, hmem, hperm, hlive⟩

/-- When every handle has come back, `prune` leaves nothing behind. -/
theorem prune_frees_all (hreach : Reachable hash cl) (hout : cl.out = []) (hevicted : cl.evicted = []) :
    ∃ cl', Call.prune.exec hash cl = some cl' ∧ (∀ e, ¬ cl'.shard.Live e) ∧ cl'.shard.usage = 0 ∧
      cl'.shard.deleted.Perm cl'.inserted := by
  obtain ⟨h, name, hh, hsim⟩ := hreach.sim
  have hlegal : (Call.prune : Call K).Legal cl := trivial
  obtain ⟨cl', hexec, hnext, hsim'⟩ := hsim.step hh.inv hlegal
  have hinv' := hnext.inv hh.inv
  have hc := hinv'.container
  have hsame : cl'.out = cl.out ∧ cl'.evicted = cl.evicted := by
    obtain ⟨_, _, heq⟩ := Option.map_eq_some_iff.mp hexec
    subst heq
    exact ⟨rfl, rfl⟩
  have hlru : (Call.onHistory name .prune h).container.lru = [] :=
    (prune_accounted h.container.lru hh.inv.container hh.inv.accounted rfl).2.1
  have hout' : (Call.onHistory name .prune h).out = [] := by
    rw [hsim'.out, hsame.1, hout]
    rfl
  have hempty : ∀ key e, (Call.onHistory name .prune h).container.table.lookup key ≠ some e := by
    intro key e hk
    have hidle := (hc.idle e).mpr ⟨⟨key, hk⟩, by rw [hout']; exact List.not_mem_nil⟩
    rw [hlru] at hidle
    cases hidle
  have hdead : ∀ e, ¬ cl'.shard.Live e := by
    intro e hlive
    obtain ⟨hlt, hnot⟩ := hsim'.shard.alive e hlive
    have hzero := (hc.stale _ hlt fun key hk => hempty key _ hk).2
    rw [hout', List.count_nil] at hzero
    cases List.mem_append.mp ((hinv'.accounted.mem_gone _).mpr ⟨hlt, hzero⟩) with
    | inl hmem =>
        rw [hsim'.evicted, hsame.2, hevicted] at hmem
        cases hmem
    | inr hmem => exact hnot hmem
  refine ⟨cl', hexec, hdead, ?_, ?_⟩
  · rw [hsim'.shard.usage, hinv'.accounted.usage]
    refine Finset.sum_eq_zero fun x hx => ?_
    have hzero := (hc.stale x (Finset.mem_range.mp hx) fun key => hempty key x).2
    rw [hout', List.count_nil] at hzero
    exact if_pos hzero
  · obtain ⟨live, _, hlive, hperm⟩ := hsim'.accounted hinv'
    have hnil : live = [] := List.eq_nil_iff_forall_not_mem.mpr fun e he => hdead e ((hlive e).mp he)
    rw [hnil, List.map_nil, List.append_nil] at hperm
    exact hperm.symm

/-- The one entry that was inserted is released, and freed by `prune`. -/
theorem prune_frees_all_released : ∃ cl cl' : LRUClient Nat, cl.inserted = [7] ∧
    Call.prune.exec id cl = some cl' ∧ (∀ e, ¬ cl'.shard.Live e) ∧ cl'.shard.usage = 0 ∧
      cl'.shard.deleted.Perm cl'.inserted := by
  obtain ⟨cl, hreach, hinserted, hout, hevicted⟩ := exists_inserted
  obtain ⟨h, name, hh, hsim⟩ := hreach.sim
  have hlegal : (Call.release 0).Legal cl := by
    change 0 ∈ cl.out
    rw [hout]
    exact List.mem_singleton.mpr rfl
  obtain ⟨cl', hexec, _⟩ := hsim.step hh.inv hlegal
  have hsame : cl'.inserted = cl.inserted ∧ cl'.out = cl.out.erase 0 ∧ cl'.evicted = cl.evicted := by
    obtain ⟨_, _, heq⟩ := Option.map_eq_some_iff.mp hexec
    subst heq
    exact ⟨rfl, rfl, rfl⟩
  rw [hinserted, hout, hevicted] at hsame
  obtain ⟨cl'', hprune⟩ := prune_frees_all (.call hreach hlegal hexec) hsame.2.1 hsame.2.2
  exact ⟨cl', cl'', hsame.1, hprune⟩

end Reachable

end LRUClient

end StarCache
