import StarCache.Foundation.Histories
import StarCache.Properties.Atomicity
import StarCache.Properties.Integrity

/-!
# Histories of calls

What users see of the cache is what they may see of a map that forgets. The history of a sequential
run is one of such a map as it is. The calls of an interleaved run can be put in an order in which
they are: each is told at the step at which it takes effect, and one that has not returned is told
if it has inserted something.
-/

namespace StarCache

open StarCacheImpl

/-! ## Calls one at a time -/

section Sequential

variable {rt : Runtime} {options : CacheOptions} {history : List Record} {s : State}

/-- What a call of the sequential run does to the map, by its reply. -/
def Record.op : Record → LossyMap.Op CacheKey IOBuf
  | ⟨.set cacheKey buf _, reply⟩ => if reply.status.ok then .put cacheKey buf else .skip
  | ⟨.get cacheKey _, reply⟩ =>
      if reply.status.ok then .see cacheKey fun value => reply.buf = value else .skip
  | ⟨.read cacheKey offset size _, reply⟩ =>
      if reply.status.ok then
        .see cacheKey fun value => 0 ≤ offset ∧ offset + size < 18446744073709551616 →
          reply.buf = (value.drop offset.toNat).take size
      else .skip
  | ⟨.remove cacheKey, reply⟩ => if reply.status.ok then .clear cacheKey else .skip
  | ⟨.pin cacheKey, reply⟩ | ⟨.unpin cacheKey, reply⟩ =>
      if reply.status.ok then .see cacheKey fun _ => True else .skip

theorem latest_op (cacheKey : CacheKey) :
    LossyMap.latest cacheKey (history.map Record.op) = latestValue cacheKey history := by
  induction history with
  | nil => rfl
  | cons record history ih =>
      obtain ⟨c, reply⟩ := record
      rw [List.map_cons]
      cases hok : reply.status.ok <;> cases c <;>
        simp [Record.op, LossyMap.latest, latestValue, hok, ih]

/-- What a call sees is the value that was put last. -/
theorem Run.sees (hdata : DataHyp rt.toPlatform) (hrun : Run rt options history s)
    (hsmall : ∀ record ∈ history, record.call.Bounded 2147483648) {c : Call} {reply : Reply}
    {t : State} (hcall : c.run rt s = some (reply, t)) {k : CacheKey} {P : IOBuf → Prop}
    (hop : Record.op ⟨c, reply⟩ = .see k P) :
    ∃ value, latestValue k history = some value ∧ P value := by
  obtain ⟨val, hsound⟩ := hrun.bytes hdata hsmall
  have hout : c.Stored rt.flags → c.Outcome _ s.reset reply t := fun hstored =>
    (hsound.ran (fun _ => hstored) (fun _ => Or.inr fun _ _ _ h => h) hcall).2.2
  cases hok : reply.status.ok with
  | false => cases c <;> simp [Record.op, hok] at hop
  | true =>
      cases c with
      | set | remove => simp [Record.op, hok] at hop
      | get cacheKey readOptions =>
          simp only [Record.op, hok, if_true] at hop
          cases hop
          obtain ⟨r, hlookup, hbuf⟩ := hout trivial trivial hok
          exact ⟨val r, hsound.lookup hlookup, hbuf⟩
      | read cacheKey offset size readOptions =>
          simp only [Record.op, hok, if_true] at hop
          cases hop
          obtain ⟨r, hlookup, hbuf⟩ := hout trivial trivial hok
          exact ⟨val r, hsound.lookup hlookup, hbuf⟩
      | pin cacheKey | unpin cacheKey =>
          simp only [Record.op, hok, if_true] at hop
          cases hop
          obtain ⟨r, hlookup, _⟩ := hout trivial hok
          exact ⟨val r, hsound.lookup hlookup, trivial⟩

/-- The history of a sequential run is one of a map that forgets. -/
theorem history_legal (hdata : DataHyp rt.toPlatform) (hrun : Run rt options history s)
    (hsmall : ∀ record ∈ history, record.call.Bounded 2147483648) :
    LossyMap.Legal (history.map Record.op) := by
  induction hrun with
  | init => trivial
  | @call history s t c reply hrun hcall ih =>
      have hearlier : ∀ record ∈ history, record.call.Bounded 2147483648 := fun record hrecord =>
        hsmall record (List.mem_cons_of_mem _ hrecord)
      have ih := ih hearlier
      rw [List.map_cons]
      cases hop : Record.op ⟨c, reply⟩ with
      | put | clear | skip => exact ih
      | see k P =>
          obtain ⟨value, hvalue, hP⟩ := hrun.sees hdata hearlier hcall hop
          exact ⟨⟨value, (latest_op k).trans hvalue, hP⟩, ih⟩

end Sequential

/-- After a read whose end wraps around. -/
theorem history_legal_small : ∃ history s,
    Run (.simple .small .reliable) (.oneDir 8 16) history s ∧
      (∀ record ∈ history, record.reply.status.ok = true) ∧
      ¬ (∀ record ∈ history, record.call.InRange) ∧ LossyMap.Legal (history.map Record.op) := by
  obtain ⟨history, s, hrun, hp⟩ := Run.of_calls (.simple .small .reliable)
    (.oneDir 8 16) [.set [1] [1, 2, 3, 4, 5] none, .set [2] [6, 7, 8, 9] none,
      .read [1] 1 18446744073709551615 none, .pin [2], .get [1] none, .remove [2]]
    (fun history _ => decide ((∀ record ∈ history, record.reply.status.ok = true) ∧
      (∀ record ∈ history, record.call.Bounded 2147483648) ∧
      ¬ (∀ record ∈ history, record.call.InRange)))
    (by decide +kernel)
  obtain ⟨hok, hsmall, hwraps⟩ := of_decide_eq_true hp
  exact ⟨history, s, hrun, hok, hwraps,
    history_legal (dataHyp_reliable geometry_small (.inl rfl)) hrun hsmall⟩

namespace Sharing

open Discipline Pool

/-! ## Interleaved calls -/

/-- What a call does to the map when it is answered so. -/
def Call.op (st : Status) (buf : IOBuf) : Call → LossyMap.Op CacheKey IOBuf
  | .set cacheKey value _ => if st.ok then .put cacheKey value else .skip
  | .read cacheKey request =>
      if st.ok then .see cacheKey fun value => buf = requested request value else .skip
  | .remove cacheKey => if st.ok then .clear cacheKey else .skip

abbrev Occurrence := Pool.Occurrence Call (Call × Status × IOBuf)

def Occurrence.op (x : Occurrence) : LossyMap.Op CacheKey IOBuf :=
  x.call.op x.answer.2.1 x.answer.2.2

section Points

variable {su : Setup} {files : Nat → Nat → Nat → UInt8} {past : Past} {p : Flight} {t n : Nat}
  {x y : Occurrence}

/-- The call takes effect in the step with `i` steps before it, if it does anything. -/
def Occurrence.HasPoint (su : Setup) (past : Past) (p : Flight) (x : Occurrence) (i : Nat) : Prop :=
  ∃ after u move before, past = after ++ (u, move) :: before ∧ before.length = i ∧ x.start ≤ i ∧
    (∀ n, x.Returned past n → i < n) ∧
    x.op.TakesEffect (putBy su u move) (u.shared.visible su)
      ((follower after p).shared.visible su) ∧
    (x.op.IsPut → move.thread = x.thread ∧ started x.thread before = some (x.call, x.start))

theorem Call.op_not_ok {c : Call} {st : Status} {buf : IOBuf} (h : st.ok = false) :
    c.op st buf = .skip := by
  cases c <;> simp only [Call.op, h] <;> rfl

theorem Call.takesEffect_op {c : Call} {st : Status} {buf : IOBuf} {put : Option (CacheKey × IOBuf)}
    {m m' : CacheKey → Option IOBuf} (h : c.TakesEffect put m m' buf) (hok : st.ok = true) :
    (c.op st buf).TakesEffect put m m' := by
  cases c with
  | set =>
      simp only [Call.op, hok, if_true]
      exact h.1
  | read | remove =>
      simp only [Call.op, hok, if_true]
      exact h

/-- Only a set that succeeds puts something. -/
theorem Call.op_isPut {c : Call} {st : Status} {buf : IOBuf} (h : (c.op st buf).IsPut) :
    ∃ cacheKey value overwrite, c = .set cacheKey value overwrite := by
  cases hok : st.ok with
  | false =>
      rw [Call.op_not_ok hok] at h
      exact h.elim
  | true =>
      cases c with
      | set cacheKey value overwrite => exact ⟨cacheKey, value, overwrite, rfl⟩
      | read | remove =>
          simp only [Call.op, hok, if_true] at h
          exact h.elim

/-- Every call that has returned has a point. -/
theorem returned_point (hflags : Sized su.flags) (hrun : CheckedRun su files past p)
    (hcalls : Calls Call.Proper past) (hreturned : x.Returned past n) :
    ∃ i, x.HasPoint su past p i := by
  obtain ⟨after, w, before, rfl, rfl, hstarted⟩ := hreturned
  obtain ⟨hbefore, hexit⟩ := hrun.before
  have hcalls' := hcalls.before
  -- the call returns after its point
  have hend : ∀ m, x.Returned (after ++ (w, .exit x.thread x.answer) :: before) m →
      before.length ≤ m := fun m hm => hrun.not_returned hstarted nofun hm rfl rfl
  obtain ⟨thread, start, call, c, st, buf⟩ := x
  obtain ⟨c', hcall, rfl, _⟩ := exit_mayEnd hbefore hcalls' hexit
  obtain rfl : call = c := Option.some.inj ((started_calling hstarted).symm.trans hcall)
  cases hok : st.ok with
  | false =>
      obtain ⟨recent, u, old, rfl, rfl, _⟩ := started_split hstarted
      refine ⟨old.length, after ++ (w, .exit thread (call, st, buf)) :: recent, u, _, old,
        by rw [List.append_assoc, List.cons_append], rfl, Nat.le_refl _, fun m hm => ?_, ?_, ?_⟩
      · exact Nat.lt_of_lt_of_le (started_lt hstarted) (hend m hm)
      · show (call.op st buf).TakesEffect _ _ _
        rw [Call.op_not_ok hok]
        trivial
      · intro hput
        change (call.op st buf).IsPut at hput
        rw [Call.op_not_ok hok] at hput
        exact hput.elim
  | true =>
      obtain ⟨recent, u, move, old, rfl, hrecent, hthread, heffect⟩ :=
        call_takes_effect hflags hbefore hcalls' hexit hok
      have hat : started thread ((u, move) :: old) = some (call, start) :=
        (started_append hrecent).symm.trans hstarted
      refine ⟨old.length, after ++ (w, .exit thread (call, st, buf)) :: recent, u, move, old,
        by rw [List.append_assoc, List.cons_append], rfl, ?_, fun m hm => ?_, ?_, fun hput => ?_⟩
      · exact Nat.le_of_lt_succ (started_lt hat)
      · refine Nat.lt_of_lt_of_le ?_ (hend m hm)
        rw [List.length_append, List.length_cons]
        omega
      · rw [follower_append]
        exact Call.takesEffect_op heffect hok
      · obtain ⟨cacheKey, value, overwrite, rfl⟩ := Call.op_isPut hput
        refine ⟨hthread.resolve_right nofun, ?_⟩
        have hmove := heffect.1
        cases move with
        | start => cases hmove
        | act | exit => exact hat

/-- The step with `i` steps before it is an insertion by the call `c`, which has started after `s`
steps. -/
def InsertsAt (past : Past) (t : Nat) (c : Call) (s i : Nat) : Prop :=
  ∃ after u id r before, past = after ++ (u, .act t (.insert id r) ()) :: before ∧
    before.length = i ∧ started t before = some (c, s)

theorem putBy_some {u : Flight} {move : Move} {put : CacheKey × IOBuf}
    (h : putBy su u move = some put) : ∃ t id r, move = .act t (.insert id r) () := by
  by_contra hinsert
  rw [putBy_other fun t id r hmove => hinsert ⟨t, id, r, hmove⟩] at h
  cases h

theorem InsertsAt.invoked {c : Call} {s i : Nat} {a : Call × Status × IOBuf}
    (h : InsertsAt past t c s i) : Occurrence.Invoked past ⟨t, s, c, a⟩ := by
  obtain ⟨after, u, id, r, before, rfl, _, hstarted⟩ := h
  obtain ⟨recent, q, old, rfl, hlength, _⟩ := started_split hstarted
  exact ⟨after ++ (u, .act t (.insert id r) ()) :: recent, q, old,
    by rw [List.append_assoc, List.cons_append], hlength⟩

/-- A call inserts once. -/
theorem insertsAt_once {c c' : Call} {s i j : Nat} (hflags : Sized su.flags)
    (hrun : CheckedRun su files past p) (hcalls : Calls Call.Proper past)
    (hi : InsertsAt past t c s i) (hj : InsertsAt past t c' s j) : i = j := by
  have hle : ∀ {c c' i j}, InsertsAt past t c s i → InsertsAt past t c' s j → j ≤ i := by
    rintro c c' i j ⟨after, u, id, r, before, heq, rfl, hstarted⟩
      ⟨after', u', id', r', before', rfl, rfl, hstarted'⟩
    by_contra hlt
    obtain ⟨mid, rfl, _⟩ := earlier_step heq rfl (Nat.not_le.mp hlt)
    obtain ⟨hbefore, hstep⟩ := hrun.before
    obtain ⟨_, _, _, _, _, hnone, _⟩ := insert_step hflags hbefore hcalls.before hstep
    refine hnone id r (step_deeds (started_mono hstarted' ?_))
    exact Nat.lt_succ_of_lt (started_lt hstarted)
  exact Nat.le_antisymm (hle hj hi) (hle hi hj)

/-- A call that has inserted something returns after that, and succeeds. -/
theorem inserted_returned {c : Call} {i : Nat} (hrun : CheckedRun su files past p)
    (hcalls : Calls Call.Proper past) (hi : InsertsAt past x.thread c x.start i)
    (hreturned : x.Returned past n) : x.answer.2.1.ok = true := by
  obtain ⟨after, u, id, r, before, rfl, rfl, hstarted⟩ := hi
  have hle := hrun.not_returned hstarted nofun hreturned rfl rfl
  obtain ⟨after', w, before', heq, rfl, hstarted'⟩ := hreturned
  rcases Nat.lt_or_eq_of_le hle with hlt | hlength
  · obtain ⟨mid, rfl, _⟩ := earlier_step rfl heq hlt
    rw [heq] at hrun hcalls
    obtain ⟨hbefore, hexit⟩ := hrun.before
    obtain ⟨c', _, _, hnone⟩ := exit_mayEnd hbefore hcalls.before hexit
    have hdeed : ⟨.insert id r, ()⟩ ∈
        deeds x.thread (mid ++ (u, .act x.thread (.insert id r) ()) :: before) :=
      step_deeds (started_mono hstarted' (Nat.lt_succ_of_lt (started_lt hstarted)))
    cases hok : x.answer.2.1.ok with
    | true => rfl
    | false =>
        refine absurd hdeed (hnone ?_ id r)
        rw [hok]
        cases c' <;> rfl
  · obtain ⟨_, hx, _⟩ := same_step rfl heq hlength
    cases congrArg Prod.snd hx

/-- The calls that are told: those that have returned, and those that have inserted something, as
if they had succeeded. -/
def Told (past : Past) (x : Occurrence) : Prop :=
  (∃ n, x.Returned past n) ∨ (∀ (y : Occurrence) n, y.Returned past n → y.start ≠ x.start) ∧
    x.answer = (x.call, .OK, []) ∧ ∃ i, InsertsAt past x.thread x.call x.start i

theorem Told.invoked (h : Told past x) : x.Invoked past := by
  rcases h with ⟨n, hreturned⟩ | ⟨_, _, i, hi⟩
  · exact hreturned.invoked
  · exact hi.invoked

theorem Told.same (hrun : CheckedRun su files past p) (hx : Told past x) (hy : Told past y)
    (hstart : x.start = y.start) : x = y := by
  obtain ⟨hthread, hcall⟩ := hx.invoked.same hy.invoked hstart
  rcases hx with ⟨n, hx⟩ | ⟨hpending, hx, _⟩ <;> rcases hy with ⟨m, hy⟩ | ⟨hpending', hy, _⟩
  · exact hrun.returned_once hx hy hstart
  · exact absurd hstart (hpending' x n hx)
  · exact absurd hstart.symm (hpending y m hy)
  · exact Pool.Occurrence.ext hthread hstart hcall (by rw [hx, hy, hcall])

/-- What a step puts is put by a set that is running. -/
theorem putBy_started {after before : Past} {u : Flight} {move : Move} {cacheKey : CacheKey}
    {value : IOBuf} (hflags : Sized su.flags)
    (hrun : CheckedRun su files (after ++ (u, move) :: before) p)
    (hcalls : Calls Call.Proper (after ++ (u, move) :: before))
    (hput : putBy su u move = some (cacheKey, value)) : ∃ overwrite s,
      started move.thread before = some (.set cacheKey value overwrite, s) ∧
      InsertsAt (after ++ (u, move) :: before) move.thread (.set cacheKey value overwrite) s
        before.length := by
  obtain ⟨t, id, r, rfl⟩ := putBy_some hput
  obtain ⟨hbefore, hstep⟩ := hrun.before
  obtain ⟨cacheKey', value', overwrite, hcall, _, _, _, hkey, hvalue, _⟩ :=
    insert_step hflags hbefore hcalls.before hstep
  rw [putBy_insert hflags hbefore hcalls.before hstep, hkey, hvalue] at hput
  cases hput
  obtain ⟨s, hstarted⟩ := calling_started hcall
  exact ⟨overwrite, s, hstarted, after, u, id, r, before, rfl, rfl, hstarted⟩

/-- A call that puts something has its point where it inserts. -/
theorem Occurrence.HasPoint.inserts {i : Nat} (h : x.HasPoint su past p i) (hput : x.op.IsPut) :
    InsertsAt past x.thread x.call x.start i := by
  obtain ⟨after, u, move, before, rfl, rfl, _, _, heffect, hat⟩ := h
  obtain ⟨k, v, _, hputs⟩ := heffect.of_put hput
  obtain ⟨hthread, hstarted⟩ := hat hput
  obtain ⟨t, id, r, rfl⟩ := putBy_some hputs
  change t = x.thread at hthread
  rw [hthread]
  exact ⟨after, u, id, r, before, rfl, rfl, hstarted⟩

/-- Every call that is told has a point. -/
theorem Told.point (hflags : Sized su.flags) (hrun : CheckedRun su files past p)
    (hcalls : Calls Call.Proper past) (h : Told past x) : ∃ i, x.HasPoint su past p i := by
  rcases h with ⟨n, hreturned⟩ | ⟨hpending, hanswer, i, hi⟩
  · exact returned_point hflags hrun hcalls hreturned
  obtain ⟨after, u, id, r, before, rfl, rfl, hstarted⟩ := hi
  have hput := putBy_insert hflags hrun.before.1 hcalls.before hrun.before.2
  obtain ⟨overwrite, s, hstarted', _⟩ := putBy_started hflags hrun hcalls hput
  refine ⟨before.length, after, u, _, before, rfl, rfl, Nat.le_of_lt (started_lt hstarted),
    fun n hn => absurd rfl (hpending x n hn), ?_, fun _ => ⟨rfl, hstarted⟩⟩
  have hcall : x.call = _ := congrArg Prod.fst (Option.some.inj (hstarted.symm.trans hstarted'))
  rw [Occurrence.op, hanswer, hcall]
  exact hput

/-- What is put is put by a call that is told. -/
theorem put_told {after before : Past} {u : Flight} {move : Move} {cacheKey : CacheKey}
    {value : IOBuf} (hflags : Sized su.flags) (hrun : CheckedRun su files past p)
    (hcalls : Calls Call.Proper past) (hpast : past = after ++ (u, move) :: before)
    (hput : putBy su u move = some (cacheKey, value)) :
    ∃ x c, Told past x ∧ x.op = .put cacheKey value ∧
      InsertsAt past x.thread c x.start before.length := by
  subst hpast
  obtain ⟨overwrite, s, hstarted, hinserts⟩ := putBy_started hflags hrun hcalls hput
  by_cases hreturned : ∃ (y : Occurrence) (n : Nat),
      y.Returned (after ++ (u, move) :: before) n ∧ y.start = s
  · obtain ⟨y, n, hreturned, rfl⟩ := hreturned
    obtain ⟨hthread, hcall⟩ : y.thread = move.thread ∧ y.call = .set cacheKey value overwrite :=
      hreturned.invoked.same (hinserts.invoked (a := y.answer)) rfl
    rw [← hthread] at hinserts
    have hok := inserted_returned hrun hcalls hinserts hreturned
    refine ⟨y, _, Or.inl ⟨n, hreturned⟩, ?_, hinserts⟩
    simp only [Occurrence.op, hcall, Call.op, hok, if_true]
  · refine ⟨⟨move.thread, s, .set cacheKey value overwrite,
      (.set cacheKey value overwrite, .OK, [])⟩, _, Or.inr ⟨fun y n hy hs => ?_, rfl, _, hinserts⟩,
      rfl, hinserts⟩
    exact hreturned ⟨y, n, hy, hs⟩

theorem next_visible (later : Past) :
    LossyMap.next (fun x : Flight × Move => x.1.shared.visible su) later (p.shared.visible su) =
      (follower later p).shared.visible su := by
  unfold LossyMap.next follower
  cases later.getLast? <;> rfl

/-- The calls that are told have points in the run. -/
theorem told_points {L : List Occurrence} {point : Occurrence → Nat} (hflags : Sized su.flags)
    (hrun : CheckedRun su files past p) (hcalls : Calls Call.Proper past)
    (honce : (L.map Pool.Occurrence.start).Nodup) (hL : ∀ x, x ∈ L ↔ Told past x)
    (hpoint : ∀ x ∈ L, x.HasPoint su past p (point x)) :
    LossyMap.Points Occurrence.op point (fun x : Flight × Move => x.1.shared.visible su)
      (fun x => putBy su x.1 x.2) past (p.shared.visible su) L where
  alters := by
    rintro later ⟨u, move⟩ earlier hpast
    rw [next_visible]
    exact visible_alters_at hflags hrun hcalls hpast
  puts := by
    rintro later ⟨u, move⟩ earlier k v hpast hput
    obtain ⟨x, c, htold, hop, hinserts⟩ := put_told hflags hrun hcalls hpast hput
    have hx := (hL x).mpr htold
    refine ⟨x, hx, ?_, hop⟩
    exact insertsAt_once hflags hrun hcalls ((hpoint x hx).inserts (hop ▸ trivial)) hinserts
  effect x hx := by
    obtain ⟨after, u, move, before, hpast, hlength, _, _, heffect, _⟩ := hpoint x hx
    refine ⟨after, (u, move), before, hpast, hlength.symm, ?_⟩
    rw [next_visible]
    exact heffect
  one x hx y hy hput hput' heq := by
    obtain ⟨after, u, move, before, hpast, hlength, _, _, _, hat⟩ := hpoint x hx
    obtain ⟨after', u', move', before', hpast', hlength', _, _, _, hat'⟩ := hpoint y hy
    obtain ⟨_, hmove, rfl⟩ := same_step hpast hpast' (hlength.trans (heq.trans hlength'.symm))
    cases hmove
    obtain ⟨hthread, hstarted⟩ := hat hput
    obtain ⟨hthread', hstarted'⟩ := hat' hput'
    rw [← hthread] at hstarted
    rw [← hthread'] at hstarted'
    exact ((hL x).mp hx).same hrun ((hL y).mp hy)
      (congrArg Prod.snd (Option.some.inj (hstarted.symm.trans hstarted')))
  nodup := honce.of_map _

/-- The calls of every interleaved run can be told one after the other, so that they are those of a
map that forgets. -/
theorem linearizable (hflags : Sized su.flags) (hreaches : Reaches su files past p)
    (hpast : Regular past) : ∃ order : List Occurrence,
      Linearizes past order ∧ LossyMap.Legal (order.map Occurrence.op) := by
  have hrun := Reaches.checked hreaches hpast
  have hcalls := hpast.proper
  obtain ⟨L, honce, hL⟩ := exists_calls (P := Told past) (fun x hx => hx.invoked.lt)
    fun x y hx hy => hx.same hrun hy
  have hpoints : ∀ x ∈ L, ∃ i, Occurrence.HasPoint su past p x i := fun x hx =>
    ((hL x).mp hx).point hflags hrun hcalls
  choose! point hpoint using hpoints
  obtain ⟨order, hperm, hsorted, hleads⟩ :=
    (told_points hflags hrun hcalls honce hL hpoint).order
  rw [next_visible, hrun.first] at hleads
  refine ⟨order, linearizes_points ?_ ?_ ?_ ?_ ?_ hsorted, hleads.legal.1⟩
  · exact (hperm.map _).nodup_iff.mpr honce
  · exact fun x hx => ((hL x).mp (hperm.mem_iff.mp hx)).invoked
  · exact fun x n hx => hperm.mem_iff.mpr ((hL x).mpr (Or.inl ⟨n, hx⟩))
  · intro x hx
    obtain ⟨_, _, _, _, _, _, hstart, _⟩ := hpoint x (hperm.mem_iff.mp hx)
    exact hstart
  · intro x hx
    obtain ⟨_, _, _, _, _, _, _, hend, _⟩ := hpoint x (hperm.mem_iff.mp hx)
    exact hend

end Points

/-- The get that was overtaken by a set is told with the old value. -/
theorem linearizable_replaced : ∃ past p, Reaches .small (fun _ _ _ => 0) past p ∧
    p.shared.lookup .small [1] = some [5] ∧ ∃ order : List Occurrence,
      (Linearizes past order ∧ LossyMap.Legal (order.map Occurrence.op)) ∧
      ∃ x ∈ order, x.call = .read [1] none ∧ x.answer = (.read [1] none, .OK, [9, 8, 7]) := by
  obtain ⟨past, p, hrun, hcalls, hnow, hresult, _⟩ := replaced_run
  obtain ⟨q, hexit⟩ := exit_of_result hresult
  have hexit := exit_checked hexit
  obtain ⟨c, hcall, rfl, _⟩ := exit_mayEnd hrun hcalls hexit
  obtain ⟨n, hstarted⟩ := calling_started hcall
  obtain ⟨hreaches, hpast⟩ := CheckedRun.reaches (hrun.step hexit) (hcalls.cons nofun)
  obtain ⟨order, hlinearizes, hlegal⟩ := linearizable sized_small hreaches hpast
  have hshared : q.shared = p.shared := by
    cases hexit
    rfl
  refine ⟨_, q, hreaches, hshared ▸ hnow, order, ⟨hlinearizes, hlegal⟩, _,
    hlinearizes.returned ⟨1, n, _, _⟩ past.length ⟨[], p, past, rfl, rfl, hstarted⟩, rfl, rfl⟩

end Sharing

end StarCache
