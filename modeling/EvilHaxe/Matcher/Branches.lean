/-
One call of `compile`: a leaf takes its row or passes it over, a switch sends a value to the rows
specialised to its constructor, to the default rows or to those of `null`, and the columns of extractors are
added. Each is correct when `compile` is on the matrices it is called with.
-/
import EvilHaxe.Matcher.Scopes

namespace EvilHaxe.Matcher

variable {V : Type} {R : Runtime V} {Ty : Type} {T : PatternTyping R Ty}

/-! ## Matrices in scope -/

/-- The locals of `L` are assigned, those of `d` are to be, and `A` tells what. -/
structure ScopeOk (T : PatternTyping R Ty) (n : Nat) (L : Nat → Prop) (A : Nat → TExpr → Prop) (d : Deferred) :
    Prop where
  below : ∀ v, L v → v < n
  known : ∀ v e, A v e → v < n ∧ e.Within (· < n)
  entries : ∀ v e, d.lookup v = some e → A v e ∧ e.Within L
  none : ¬ T.extractors → ∀ v, d.lookup v = none

/-- The subject is assigned or to be. -/
def SubjectOk (L : Nat → Prop) (d : Deferred) (e : TExpr) : Prop :=
  e.Within L ∨ ∃ v e1, e = .tLocal v ∧ d.lookup v = some e1

/-- A column whose subject is neither has no pattern but `_`, and is passed over. -/
def ColumnOk (ctx : MatcherContext) (L : Nat → Prop) (d : Deferred) (e : TExpr) (pat : Pattern) : Prop :=
  SubjectOk L d e ∨ (pat = .patAny ∧ ctx.isExplicitNull e = false)

/-- The row looks at no other columns. -/
def RowScope (T : PatternTyping R Ty) (ctx : MatcherContext) (L : Nat → Prop) (d : Deferred) (ts : List Ty)
    (subjects : List TExpr) (r : Row) : Prop :=
  (∀ e ∈ subjects, SubjectOk L d e) ∨
    (FitsAll T r.patterns ts ∧ ∀ p ∈ subjects.zip r.patterns, ColumnOk ctx L d p.1 p.2)

/-- What `compile` needs in order to succeed. -/
structure MatrixOk (T : PatternTyping R Ty) (n : Nat) (ts : List Ty) (subjects : List TExpr) (rows : List Row) :
    Prop where
  length : subjects.length = ts.length
  below : ∀ e ∈ subjects, e.Below n
  rows_ok : ∀ r ∈ rows, RowOk T (fun _ => True) ts r

/-- What it needs to be correct. -/
structure InScope (T : PatternTyping R Ty) (ctx : MatcherContext) (n : Nat) (L : Nat → Prop)
    (A : Nat → TExpr → Prop) (d : Deferred) (ts : List Ty) (subjects : List TExpr) (rows : List Row) : Prop where
  scope : ScopeOk T n L A d
  subjects_ok : ∀ r ∈ rows, RowScope T ctx L d ts subjects r
  rows_ok : ∀ r ∈ rows, RowOk T (Ready L A) ts r

/-- With the locals that are no longer to be assigned. -/
def gained (L : Nat → Prop) (d d' : Deferred) : Nat → Prop := fun v => L v ∨ ((d.lookup v).isSome ∧ d'.lookup v = none)

/-- The tree reaches what the rows call for, on all values of the types; where there are `null` patterns or
extractors, on those that meet a condition. The locals that are still to be assigned may hold anything. -/
def Correct (T : PatternTyping R Ty) (P : Env V → Prop) (ts : List Ty) (subjects : List TExpr) (rows : List Row)
    (L : Nat → Prop) (A : Nat → TExpr → Prop) (d d' : Deferred) (dt : Dt) : Prop :=
  ∀ ρ ρ' : Env V, Holds R (gained L d d') A ρ ρ' → List.Forall₂ T.val ts (subjects.map (evalExpr R ρ')) →
    (T.nulls ∨ T.extractors → P ρ') →
    RowSelects R T.nulls ρ' (subjects.map (evalExpr R ρ')) rows (evalDt R ρ dt)

/-- `compile` succeeds with a correct tree. -/
def Compiles (T : PatternTyping R Ty) (ctx : MatcherContext) (P : Env V → Prop) (n : Nat) (d : Deferred) (ts : List Ty)
    (subjects : List TExpr) (rows : List Row) (res : Compiled) : Prop :=
  ∃ dt d', res = .ok (dt, d') ∧ Deferred.Sub d' d ∧
    ∀ L A, InScope T ctx n L A d ts subjects rows → Correct T P ts subjects rows L A d d' dt

/-- It does so on the matrices that need less fuel. -/
def CorrectBelow (T : PatternTyping R Ty) (ctx : MatcherContext)
    (compile : Nat → Deferred → List TExpr → List Row → Compiled)
    (P : Nat → Deferred → List TExpr → List Row → Env V → Prop) (need : Nat) : Prop :=
  ∀ (n : Nat) (d : Deferred) (ts : List Ty) (subjects : List TExpr) (rows : List Row), MatrixOk T n ts subjects rows →
    fuelNeed subjects.length (rowsWeight rows) < need →
    Compiles T ctx (P n d subjects rows) n d ts subjects rows (compile n d subjects rows)

section

variable {n : Nat} {L : Nat → Prop} {A : Nat → TExpr → Prop} {d d' d'' : Deferred}

theorem gained_self : ∀ v, gained L d d v → L v := by
  rintro v (h | ⟨h1, h2⟩)
  · exact h
  · rw [h2] at h1
    cases h1

theorem gained_mono (h : Deferred.Sub d'' d') : ∀ v, gained L d d' v → gained L d d'' v := by
  rintro v (hv | ⟨h1, h2⟩)
  · exact .inl hv
  · exact .inr ⟨h1, h.none h2⟩

/-- Between two calls the locals may grow. -/
theorem gained_trans (h : Deferred.Sub d' d) (h' : Deferred.Sub d'' d') :
    ∀ v, gained (gained L d d') d' d'' v → gained L d d'' v := by
  rintro v (hv | ⟨h1, h2⟩)
  · exact gained_mono h' v hv
  · obtain ⟨e, he⟩ := Option.isSome_iff_exists.1 h1
    exact .inr ⟨by rw [h v e he]; rfl, h2⟩

theorem ScopeOk.gain (h : ScopeOk T n L A d) (hd : Deferred.Sub d' d) : ScopeOk T n (gained L d d') A d' where
  below v hv := by
    rcases hv with hv | ⟨h1, -⟩
    · exact h.below v hv
    · obtain ⟨e, he⟩ := Option.isSome_iff_exists.1 h1
      exact (h.known v e (h.entries v e he).1).1
  known := h.known
  entries v e he := ⟨(h.entries v e (hd v e he)).1, (h.entries v e (hd v e he)).2.mono fun _ hw => .inl hw⟩
  none hne v := hd.none (h.none hne v)

theorem SubjectOk.gain {e : TExpr} (h : SubjectOk L d e) : SubjectOk (gained L d d') d' e := by
  rcases h with h | ⟨v, e1, rfl, hv⟩
  · exact .inl (h.mono fun _ hw => .inl hw)
  · cases hd : d'.lookup v with
    | none => exact .inl (.inr ⟨by rw [hv]; rfl, hd⟩)
    | some e2 => exact .inr ⟨v, e2, rfl, hd⟩

theorem ColumnOk.gain {ctx : MatcherContext} {e : TExpr} {pat : Pattern} (h : ColumnOk ctx L d e pat) :
    ColumnOk ctx (gained L d d') d' e pat := by
  rcases h with h | h
  · exact .inl h.gain
  · exact .inr h

theorem RowScope.columns {ctx : MatcherContext} {ts : List Ty} {subjects : List TExpr} {r : Row}
    (h : RowScope T ctx L d ts subjects r) : ∀ p ∈ subjects.zip r.patterns, ColumnOk ctx L d p.1 p.2 := by
  rcases h with h | ⟨-, h⟩
  · exact fun p hp => .inl (h p.1 (List.of_mem_zip hp).1)
  · exact h

theorem RowScope.gain {ctx : MatcherContext} {ts : List Ty} {subjects : List TExpr} {r : Row}
    (h : RowScope T ctx L d ts subjects r) : RowScope T ctx (gained L d d') d' ts subjects r := by
  rcases h with h | ⟨ht, h⟩
  · exact .inl fun e he => (h e he).gain
  · exact .inr ⟨ht, fun p hp => (h p hp).gain⟩

theorem InScope.gain {ctx : MatcherContext} {ts : List Ty} {subjects : List TExpr} {rows : List Row}
    (h : InScope T ctx n L A d ts subjects rows) (hd : Deferred.Sub d' d) :
    InScope T ctx n (gained L d d') A d' ts subjects rows where
  scope := h.scope.gain hd
  subjects_ok r hr := (h.subjects_ok r hr).gain
  rows_ok r hr := (h.rows_ok r hr).mono fun _ hb => hb.mono fun _ hv => .inl hv

/-- The subject at its first use: it is ready, and has the value of the subject. -/
theorem ready_getScopedExpr (h : ScopeOk T n L A d) (hd : Deferred.Sub d' d) {s : TExpr} (hs : SubjectOk L d s)
    (hp : Plain s) : Ready (gained L d d') A (getScopedExpr d' s) := by
  have hlocal : ∀ v, s = .tLocal v → d'.lookup v = none → gained L d d' v := by
    rintro v rfl hv
    rcases hs with hs | ⟨w, e1, he, hw⟩
    · exact .inl hs
    · obtain rfl := TExpr.tLocal.inj he
      exact .inr ⟨by rw [hw]; rfl, hv⟩
  cases s with
  | tLocal v =>
    cases hv : d'.lookup v with
    | none =>
      have he : getScopedExpr d' (.tLocal v) = .tLocal v := by simp [getScopedExpr, hv]
      rw [he]
      exact ⟨hlocal v rfl hv, nofun⟩
    | some e1 =>
      have he : getScopedExpr d' (.tLocal v) = .tAssign v e1 := by simp [getScopedExpr, hv]
      obtain ⟨hA, hw⟩ := h.entries v e1 (hd v e1 hv)
      rw [he]
      refine ⟨(hw.mono fun _ hx => .inl hx : e1.Within (gained L d d')), fun w e2 heq => ?_⟩
      obtain ⟨rfl, rfl⟩ := TExpr.tAssign.inj heq
      exact hA
  | _ =>
    rcases hs with hs | ⟨w, e1, he, -⟩
    · exact ⟨hs.mono fun _ hx => .inl hx, fun v e1 he => absurd he (hp v e1)⟩
    · cases he

theorem eval_getScopedExpr {ρ' : Env V} (h : ∀ v e, d.lookup v = some e → ρ'.locals v = evalExpr R ρ' e) (s : TExpr) :
    evalExpr R ρ' (getScopedExpr d s) = evalExpr R ρ' s := by
  cases s with
  | tLocal v =>
    cases hv : d.lookup v with
    | none => simp [getScopedExpr, hv]
    | some e1 =>
      have he : getScopedExpr d (.tLocal v) = .tAssign v e1 := by simp [getScopedExpr, hv]
      rw [he]
      exact (h v e1 hv).symm
  | _ => rfl

theorem Holds.deferred {ρ ρ' : Env V} {L' : Nat → Prop} (h : Holds R L' A ρ ρ') (hs : ScopeOk T n L A d)
    (hd : Deferred.Sub d' d) : ∀ v e, d'.lookup v = some e → ρ'.locals v = evalExpr R ρ' e :=
  fun v e he => h.known v e (hs.entries v e (hd v e he)).1

end

/-! ## Leaves -/

/-- A wildcard pattern has one match, the bindings `bindAll` adds. -/
theorem bindAll_spec (ρ : Env V) (subject : TExpr) : ∀ (pat : Pattern) (bindings : List (Nat × TExpr)),
    isWildcardPattern pat = true → ∃ β, patMatches R pat (evalExpr R ρ subject) = [β] ∧
      (bindValues R ρ (bindAll subject bindings pat)).Perm (bindValues R ρ bindings ++ β)
  | .patAny, bindings, _ => ⟨[], by simp [patMatches], by simp [bindAll]⟩
  | .patBind x pat, bindings, h => by
    obtain ⟨β, hβ, hp⟩ := bindAll_spec ρ subject pat ((x, subject) :: bindings) h
    exact ⟨(x, evalExpr R ρ subject) :: β, by simp [patMatches, hβ], hp.trans List.perm_middle.symm⟩

theorem bindAll_mem {B : TExpr → Prop} {subject : TExpr} : ∀ (pat : Pattern) (bindings : List (Nat × TExpr)),
    (∀ b ∈ bindings, B b.2) → pat = .patAny ∨ B subject → ∀ b ∈ bindAll subject bindings pat, B b.2
  | .patBind x pat, bindings, hb, hs => by
    have hs := hs.resolve_left nofun
    exact bindAll_mem pat ((x, subject) :: bindings) (List.forall_mem_cons.2 ⟨hs, hb⟩) (.inr hs)
  | .patAny, _, hb, _ | .patConstructor _ _, _, hb, _ | .patOr _ _, _, hb, _ | .patTuple _, _, hb, _
  | .patExtractor _ _, _, hb, _ => hb

/-- A row of wildcards has one match, the bindings of `compile_leaf`. -/
theorem leafBindings_spec : ∀ (pats : List Pattern) (ts : List Ty) (subjects : List TExpr)
    (bindings : List (Nat × TExpr)), FitsAll T pats ts → subjects.length = ts.length →
    pats.all isWildcardPattern = true →
    ∃ bs, leafBindings pats subjects bindings = .ok bs ∧
      (∀ B : TExpr → Prop, (∀ b ∈ bindings, B b.2) → (∀ p ∈ subjects.zip pats, p.2 = .patAny ∨ B p.1) →
        ∀ b ∈ bs, B b.2) ∧ ∀ ρ : Env V,
      ∃ β0, matchAll R pats (subjects.map (evalExpr R ρ)) = [β0] ∧
        (bindValues R ρ bs).Perm (bindValues R ρ bindings ++ β0)
  | [], [], [], bindings, _, _, _ =>
    ⟨bindings, rfl, fun _ hb _ => hb, fun ρ => ⟨[], by simp [matchAll], by simp⟩⟩
  | [], _ :: _, _, _, h, _, _ => by simp [FitsAll] at h
  | _ :: _, [], _, _, h, _, _ => by simp [FitsAll] at h
  | [pat], [t], [s], bindings, h, _, hw => by
    have hw : isWildcardPattern pat = true := by simpa using hw
    refine ⟨bindAll s bindings pat, by simp [leafBindings, hw], fun B hb hs => ?_, fun ρ => ?_⟩
    · exact bindAll_mem pat bindings hb (hs (s, pat) (List.mem_singleton_self _))
    · obtain ⟨β, hβ, hp⟩ := bindAll_spec ρ s pat bindings hw
      exact ⟨β, by simp [matchAll, hβ], hp⟩
  | [_], _ :: _ :: _, _, _, h, _, _ => by simp [FitsAll] at h
  | pat :: pat' :: pats, t :: ts, s :: subjects, bindings, h, hl, hw => by
    simp only [FitsAll] at h
    simp only [List.all_cons, Bool.and_eq_true] at hw
    obtain ⟨bs, hbs, hB, hall⟩ := leafBindings_spec (pat' :: pats) ts subjects (bindAll s bindings pat)
      h.2 (Nat.succ.inj hl) (by simpa using hw.2)
    refine ⟨bs, by simpa [leafBindings] using hbs, fun B hb hs => ?_, fun ρ => ?_⟩
    · obtain ⟨hs, hss⟩ := List.forall_mem_cons.1 hs
      exact hB B (bindAll_mem pat bindings hb hs) hss
    · obtain ⟨β0, h0, hp0⟩ := hall ρ
      obtain ⟨β, hβ, hp⟩ := bindAll_spec ρ s pat bindings hw.1
      refine ⟨β ++ β0, ?_, ?_⟩
      · rw [List.map_cons, matchAll, hβ, h0]
        simp
      · refine hp0.trans ((hp.append_right β0).trans ?_)
        rw [List.append_assoc]

/-- A row of wildcards is typed pattern by pattern. -/
theorem fitsAll_of_wildcards {ts : List Ty} : ∀ {pats : List Pattern}, HasRow T pats ts →
    pats.all isWildcardPattern = true → FitsAll T pats ts
  | [], h, _ => h
  | _ :: _ :: _, h, _ => h
  | [pat], h, hw => by
    have hone : ∀ pat : Pattern, FitsTop T pat ts → isWildcardPattern pat = true →
        ∃ t, ts = [t] ∧ Fits T pat t := by
      intro pat h hw
      match pat, h, hw with
      | .patAny, h, _ | .patBind _ _, h, _ =>
        rcases ts with _ | ⟨t, _ | _⟩
        · exact h.elim
        · exact ⟨t, rfl, h⟩
        · exact h.elim
    obtain ⟨t, rfl, ht⟩ := hone pat h.2 (by simpa using hw)
    simp only [FitsAll]
    exact ⟨ht, trivial⟩

section

variable {ctx : MatcherContext} {n : Nat} {d d' : Deferred} {ts : List Ty} {subjects : List TExpr} {r : Row}
  {rows : List Row}

/-- What a leaf does: it sets the variables of its row as in the row's one match, and the guard sees them. -/
structure LeafOk (T : PatternTyping R Ty) (subjects : List TExpr) (r : Row) (L' : Nat → Prop) (A : Nat → TExpr → Prop)
    (bs : List (Nat × TExpr)) (ρ ρ' : Env V) : Prop where
  holds : Holds R L' A (ρ.bind R (userBinds bs.reverse)) ρ'
  self : RowAlt R ρ' (subjects.map (evalExpr R ρ')) r (bindValues R ρ' bs)
  user : ∀ β, RowAlt R ρ' (subjects.map (evalExpr R ρ')) r β → ∀ x v, (x, v) ∈ β →
    (ρ.bind R (userBinds bs.reverse)).user x = some v
  guard : ∀ β, RowAlt R ρ' (subjects.map (evalExpr R ρ')) r β → ∀ g, r.case.caseGuard = some g →
    guardTrue R r.case β = R.guard g (ρ.bind R (userBinds bs.reverse)).user

theorem leaf_spec (hm : MatrixOk T n ts subjects (r :: rows)) (hw : r.patterns.all isWildcardPattern = true)
    (hd : Deferred.Sub d' d) : ∃ bs, leafBindings r.patterns (subjects.map (getScopedExpr d')) r.bindings = .ok bs ∧
      ∀ L A, InScope T ctx n L A d ts subjects (r :: rows) → ∀ ρ ρ' : Env V, Holds R (gained L d d') A ρ ρ' →
        LeafOk T subjects r (gained L d d') A bs ρ ρ' := by
  have hr := hm.rows_ok r (List.mem_cons_self ..)
  have htypes := fitsAll_of_wildcards hr.typed hw
  obtain ⟨bs, hbs, hB, hall⟩ := leafBindings_spec (R := R) r.patterns ts (subjects.map (getScopedExpr d')) r.bindings
    htypes (by rw [List.length_map, hm.length]) hw
  refine ⟨bs, hbs, fun L A hin ρ ρ' hholds => ?_⟩
  have hready : ∀ b ∈ bs, Ready (gained L d d') A b.2 := by
    refine hB _ (fun b hb => ?_) fun e he => ?_
    · exact ((hin.rows_ok r (List.mem_cons_self ..)).bound b hb).mono fun _ hv => .inl hv
    · rw [List.zip_map_left] at he
      obtain ⟨p, hp, rfl⟩ := List.mem_map.1 he
      rcases (hin.subjects_ok r (List.mem_cons_self ..)).columns p hp with hs | ⟨hany, -⟩
      · exact .inr (ready_getScopedExpr hin.scope hd hs (hm.below p.1 (List.of_mem_zip hp).1).plain)
      · exact .inl hany
  have hvalues : (subjects.map (getScopedExpr d')).map (evalExpr R ρ') = subjects.map (evalExpr R ρ') := by
    rw [List.map_map]
    exact List.map_congr_left fun s _ => eval_getScopedExpr (hholds.deferred hin.scope hd) s
  obtain ⟨β0, h0, hp⟩ := hall ρ'
  rw [hvalues] at h0
  have hlen : (subjects.map (evalExpr R ρ')).length = ts.length := by rw [List.length_map, hm.length]
  have hself : RowAlt R ρ' (subjects.map (evalExpr R ρ')) r (bindValues R ρ' bs) :=
    (rowAlt_iff hlen htypes).2 ⟨β0, by rw [h0]; exact List.mem_singleton_self _, hp⟩
  -- any match of the row has the same bindings, in some order
  have hmatch : ∀ β, RowAlt R ρ' (subjects.map (evalExpr R ρ')) r β →
      β.Perm (bindValues R ρ' bs) ∧ (β.map Prod.fst).Perm r.vars := by
    intro β hβ
    obtain ⟨β1, hβ1, hperm⟩ := (rowAlt_iff hlen htypes).1 hβ
    obtain rfl : β1 = β0 := by simpa [h0] using hβ1
    refine ⟨hperm.trans hp.symm, ?_⟩
    have hb : (bindValues R ρ' r.bindings).map Prod.fst = r.bindings.map Prod.fst := by
      simp [bindValues, Function.comp_def]
    have := hperm.map Prod.fst
    rw [List.map_append, hb] at this
    exact this.trans ((vars_matchAll R _ hr.varsOk hβ1).append_left _)
  have hnodup : ∀ β, RowAlt R ρ' (subjects.map (evalExpr R ρ')) r β → (β.map Prod.fst).Nodup := fun β hβ =>
    (hmatch β hβ).2.nodup_iff.2 hr.nodup
  have hfst : (bindValues R ρ' bs).map Prod.fst = bs.map Prod.fst := by simp [bindValues, Function.comp_def]
  have hbsnodup : (bs.reverse.map Prod.fst).Nodup := by
    rw [List.map_reverse, List.nodup_reverse, ← hfst]
    exact hnodup _ hself
  obtain ⟨hafter, huser⟩ := hholds.bindUser bs.reverse (fun b hb => hready b (List.mem_reverse.1 hb)) hbsnodup
  have hset : ∀ β, RowAlt R ρ' (subjects.map (evalExpr R ρ')) r β → ∀ x v, (x, v) ∈ β →
      (ρ.bind R (userBinds bs.reverse)).user x = some v := by
    intro β hβ x v hxv
    obtain ⟨b, hb, he⟩ := List.mem_map.1 ((hmatch β hβ).1.mem_iff.1 hxv)
    cases he
    exact huser b (List.mem_reverse.2 hb)
  refine ⟨hafter, hself, hset, fun β hβ g hg => ?_⟩
  unfold guardTrue
  rw [hg]
  refine hr.closed g hg _ _ fun x hx => ?_
  obtain ⟨⟨y, v⟩, hyv, rfl⟩ := List.mem_map.1 ((hmatch β hβ).2.mem_iff.2 hx)
  rw [hset β hβ y v hyv, lookup_of_mem (hnodup β hβ) hyv]

/-- The bindings of a leaf are left out when there are none. -/
theorem evalDt_leaf (bs : List (Nat × TExpr)) (inner : Dt) (ρ : Env V) :
    evalDt R ρ (if bs.isEmpty then inner else .bind (bs.reverse.map fun b => (.user b.1, b.2)) inner) =
      evalDt R (ρ.bind R (userBinds bs.reverse)) inner := by
  cases bs with
  | nil => rfl
  | cons b bs => rfl

theorem compileLeaf_correct {compile : Deferred → List TExpr → List Row → Compiled} {P : Env V → Prop}
    (hm : MatrixOk T n ts subjects (r :: rows)) (hw : r.patterns.all isWildcardPattern = true)
    (hrec : Compiles T ctx P n d ts subjects rows (compile d subjects rows)) :
    Compiles T ctx (fun ρ => Fails R ρ (subjects.map (evalExpr R ρ)) r → P ρ) n d ts subjects (r :: rows)
      (compileLeaf compile d subjects r rows) := by
  cases hg : r.case.caseGuard with
  | none =>
    obtain ⟨bs, hbs, hleaf⟩ := leaf_spec (R := R) hm hw (Deferred.Sub.refl d)
    refine ⟨_, d, by simp only [compileLeaf, hg, bind, Except.bind, pure, Except.pure, hbs]; rfl, Deferred.Sub.refl d,
      fun L A hin ρ ρ' hholds _ _ => ?_⟩
    have hok := hleaf L A hin ρ ρ' hholds
    rw [evalDt_leaf]
    refine .inl ⟨_, _, rfl, hok.self, ?_, fun _ => hok.user _ hok.self⟩
    unfold guardTrue
    rw [hg]
  | some g =>
    obtain ⟨dt2, d', hdt2, hd, hcorrect⟩ := hrec
    obtain ⟨bs, hbs, hleaf⟩ := leaf_spec (R := R) hm hw hd
    refine ⟨_, d', by simp only [compileLeaf, hg, hdt2, bind, Except.bind, pure, Except.pure, hbs]; rfl, hd, fun L A hin ρ ρ' hholds hval hP => ?_⟩
    have hok := hleaf L A hin ρ ρ' hholds
    rw [evalDt_leaf, evalDt]
    split
    · rename_i ht
      exact .inl ⟨_, _, rfl, hok.self, (hok.guard _ hok.self g hg).trans ht, fun _ => hok.user _ hok.self⟩
    · rename_i hf
      have hfails : Fails R ρ' (subjects.map (evalExpr R ρ')) r := fun β hβ => by
        rw [hok.guard β hβ g hg]
        simpa using hf
      have hin' : InScope T ctx n L A d ts subjects rows :=
        ⟨hin.scope, fun q hq => hin.subjects_ok q (List.mem_cons_of_mem _ hq), fun q hq => hin.rows_ok q (List.mem_cons_of_mem _ hq)⟩
      exact .inr ⟨hfails, hcorrect L A hin' _ ρ' hok.holds hval fun hs => hP hs hfails⟩

end

end EvilHaxe.Matcher

/-! The branches of a switch: in each one the parts of the value get locals, and its tree is correct when
`compile` is on the specialised rows. -/

namespace EvilHaxe.Matcher

variable {V : Type} {R : Runtime V} {Ty : Type} {T : PatternTyping R Ty}

/-! ## Branches -/

/-- A branch of a switch: its constructor and its tree. -/
def SwitchCase.Is (Q : Dt → Prop) (con : Con) : SwitchCase → Prop
  | .mk con' _ dt => con' = con ∧ Q dt

/-- A switch takes a branch whose constructor the value has; without one it takes none. -/
theorem evalCases_spec {Q : Con → Dt → Prop} {ρ : Env V} {v : V} : ∀ {sigma : List (Con × Bool)}
    {cases : List SwitchCase}, List.Forall₂ (fun p sc => SwitchCase.Is (Q p.1) p.1 sc) sigma cases →
    (∃ p ∈ sigma, R.holds p.1 v = true ∧ ∃ dt, Q p.1 dt ∧ evalCases R ρ v cases = some (evalDt R ρ dt)) ∨
      ((∀ p ∈ sigma, R.holds p.1 v = false) ∧ evalCases R ρ v cases = none)
  | [], [], .nil => .inr ⟨nofun, rfl⟩
  | p :: sigma, .mk con _ dt :: cases, .cons h hs => by
    obtain ⟨rfl, hq⟩ := h
    unfold evalCases
    cases hh : R.holds p.1 v with
    | true => exact .inl ⟨p, List.mem_cons_self .., hh, dt, hq, rfl⟩
    | false =>
      rcases evalCases_spec hs with ⟨p', hp', h1, dt', h2, h3⟩ | ⟨h1, h2⟩
      · exact .inl ⟨p', List.mem_cons_of_mem _ hp', h1, dt', h2, by simpa using h3⟩
      · exact .inr ⟨List.forall_mem_cons.2 ⟨hh, h1⟩, by simpa using h2⟩

/-- With the subject of a switch, which is assigned there if it has to be. -/
def used (L : Nat → Prop) (s : TExpr) : Nat → Prop := fun v => L v ∨ s = .tLocal v

section

variable {ctx : MatcherContext} {n : Nat} {t : Ty} {ts : List Ty} {subject : TExpr} {subjects : List TExpr} {rows : List Row}
  {L : Nat → Prop} {A : Nat → TExpr → Prop} {d d' d'' : Deferred}

theorem within_used (h : SubjectOk L d subject) : subject.Within (used L subject) := by
  rcases h with h | ⟨v, e1, rfl, -⟩
  · exact h.mono fun _ hv => .inl hv
  · exact .inr rfl

theorem ScopeOk.use (h : ScopeOk T n L A d) (hs : subject.Below n) :
    ScopeOk T n (used L subject) A (markUsed subject d) where
  below v hv := by
    rcases hv with hv | rfl
    · exact h.below v hv
    · exact hs
  known := h.known
  entries v e he :=
    ⟨(h.entries v e (markUsed_sub subject d v e he)).1,
      (h.entries v e (markUsed_sub subject d v e he)).2.mono fun _ hw => .inl hw⟩
  none hne v := (markUsed_sub subject d).none (h.none hne v)

theorem SubjectOk.use {e : TExpr} (h : SubjectOk L d e) : SubjectOk (used L subject) (markUsed subject d) e := by
  rcases h with h | ⟨v, e1, rfl, hv⟩
  · exact .inl (h.mono fun _ hw => .inl hw)
  · by_cases hs : subject = .tLocal v
    · exact .inl (.inr hs)
    · exact .inr ⟨v, e1, rfl, by rwa [lookup_markUsed hs]⟩

theorem ColumnOk.use {e : TExpr} {pat : Pattern} (h : ColumnOk ctx L d e pat) :
    ColumnOk ctx (used L subject) (markUsed subject d) e pat := by
  rcases h with h | h
  · exact .inl h.use
  · exact .inr h

theorem InScope.columns (h : InScope T ctx n L A d (t :: ts) (subject :: subjects) rows)
    (hrows : ∀ r ∈ rows, FlatOk T (fun _ => True) (t :: ts) r) : ∀ r ∈ rows, ∃ pat ∈ r.patterns.head?,
      ColumnOk ctx L d subject pat ∧ ∀ p ∈ subjects.zip r.patterns.tail, ColumnOk ctx L d p.1 p.2 := by
  intro r hr
  have hcolumns := (h.subjects_ok r hr).columns
  obtain ⟨pat, rest, hp, -⟩ := (hrows r hr).uncons
  rw [hp, List.zip_cons_cons] at hcolumns
  obtain ⟨hfirst, hrest⟩ := List.forall_mem_cons.1 hcolumns
  exact ⟨pat, by rw [hp]; rfl, hfirst, by rw [hp]; exact hrest⟩

/-- The rows as they are read in a scope. -/
theorem InScope.flat (h : InScope T ctx n L A d (t :: ts) (subject :: subjects) rows)
    (hrows : ∀ r ∈ rows, FlatOk T (fun _ => True) (t :: ts) r) : ∀ r ∈ rows, FlatOk T (Ready L A) (t :: ts) r :=
  fun r hr => ⟨h.rows_ok r hr, (hrows r hr).types, (hrows r hr).flat⟩

/-- What the branches of a switch need of the scope. -/
structure BranchScope (T : PatternTyping R Ty) (ctx : MatcherContext) (n : Nat) (L : Nat → Prop)
    (A : Nat → TExpr → Prop) (d : Deferred) (t : Ty) (ts : List Ty) (subject : TExpr) (subjects : List TExpr) (rows : List Row) : Prop where
  scope : ScopeOk T n L A d
  subject_ok : subject.Within L
  plain : Plain subject
  subjects_ok : ∀ r ∈ rows, ∀ p ∈ subjects.zip r.patterns.tail, ColumnOk ctx L d p.1 p.2
  rows_ok : ∀ r ∈ rows, FlatOk T (Ready L A) (t :: ts) r

theorem InScope.use (h : InScope T ctx n L A d (t :: ts) (subject :: subjects) rows)
    (hrows : ∀ r ∈ rows, FlatOk T (fun _ => True) (t :: ts) r) (hs : subject.Below n) (hsubject : SubjectOk L d subject) :
    BranchScope T ctx n (used L subject) A (markUsed subject d) t ts subject subjects rows where
  scope := h.scope.use hs
  subject_ok := within_used hsubject
  plain := hs.plain
  subjects_ok r hr p hp := by
    obtain ⟨-, -, -, hrest⟩ := h.columns hrows r hr
    exact (hrest p hp).use
  rows_ok r hr := (h.flat hrows r hr).mono fun _ hb => hb.mono fun _ hv => .inl hv

theorem BranchScope.gain (h : BranchScope T ctx n L A d t ts subject subjects rows) (hd : Deferred.Sub d' d) :
    BranchScope T ctx n (gained L d d') A d' t ts subject subjects rows where
  scope := h.scope.gain hd
  subject_ok := h.subject_ok.mono fun _ hv => .inl hv
  plain := h.plain
  subjects_ok r hr p hp := (h.subjects_ok r hr p hp).gain
  rows_ok r hr := (h.rows_ok r hr).mono fun _ hb => hb.mono fun _ hv => .inl hv

theorem BranchScope.ready (h : BranchScope T ctx n L A d t ts subject subjects rows) : Ready L A subject :=
  ⟨h.subject_ok, fun v e1 he => absurd he (h.plain v e1)⟩

/-- In a branch, when the value has its constructor, the tree reaches what the rows call for, if the values
meet the condition in the matrix of the branch. -/
def BranchCorrect (T : PatternTyping R Ty) (ctx : MatcherContext) (P : Nat → Deferred → List TExpr → List Row → Env V → Prop) (n : Nat)
    (d d' : Deferred) (t : Ty) (ts : List Ty) (subject : TExpr) (subjects : List TExpr) (rows : List Row)
    (con : Con) (dt : Dt) : Prop :=
  ∀ L A, BranchScope T ctx n L A d t ts subject subjects rows → ∀ ρ ρ' : Env V, Holds R (gained L d d') A ρ ρ' →
    List.Forall₂ T.val (t :: ts) ((subject :: subjects).map (evalExpr R ρ')) →
    R.holds con (evalExpr R ρ' subject) = true →
    (T.nulls ∨ T.extractors → ∀ d'', Deferred.Sub d'' d → P (n + (getSubSubjects subject con).length) d''
      ((subLocals n (getSubSubjects subject con)).2 ++ subjects) (specialize subject con rows)
      (ρ'.bind R (subLocals n (getSubSubjects subject con)).1)) →
    RowSelects R T.nulls ρ' ((subject :: subjects).map (evalExpr R ρ')) rows (evalDt R ρ dt)

variable {compile : Nat → Deferred → List TExpr → List Row → Compiled}
  {P : Nat → Deferred → List TExpr → List Row → Env V → Prop}

/-- The matrix of a branch can be compiled. -/
theorem branch_matrixOk (hrows : ∀ r ∈ rows, FlatOk T (fun _ => True) (t :: ts) r) (hl : subjects.length = ts.length)
    (hsubs : ∀ e ∈ subjects, e.Below n) {con : Con} (hcon : T.con t con) (hne : con ≠ .conConst .tNull) :
    MatrixOk T (n + (getSubSubjects subject con).length) (T.sub t con ++ ts)
      ((subLocals n (getSubSubjects subject con)).2 ++ subjects) (specialize subject con rows) where
  length := by
    rw [List.length_append, List.length_append, subLocals_length, getSubSubjects_length, T.sub_length hcon, hl]
  below e he := by
    rcases List.mem_append.1 he with he | he
    · obtain ⟨v, rfl, -, hv⟩ := subLocals_mem n _ e he
      exact hv
    · exact (hsubs e he).mono (Nat.le_add_right ..)
  rows_ok := specialize_ok hrows trivial hcon hne

theorem branch_inScope (h : BranchScope T ctx n L A d t ts subject subjects rows) {con : Con} (hcon : T.con t con)
    (hne : con ≠ .conConst .tNull) :
    InScope T ctx (n + (getSubSubjects subject con).length)
      (fun v => L v ∨ (n ≤ v ∧ v < n + (getSubSubjects subject con).length)) A d (T.sub t con ++ ts)
      ((subLocals n (getSubSubjects subject con)).2 ++ subjects) (specialize subject con rows) where
  scope :=
    { below := fun v hv => by
        rcases hv with hv | hv
        · exact Nat.lt_add_right _ (h.scope.below v hv)
        · exact hv.2
      known := fun v e he => ⟨Nat.lt_add_right _ (h.scope.known v e he).1,
        (h.scope.known v e he).2.mono fun _ hx => Nat.lt_add_right _ hx⟩
      entries := fun v e he => ⟨(h.scope.entries v e he).1, (h.scope.entries v e he).2.mono fun _ hx => .inl hx⟩
      none := h.scope.none }
  subjects_ok r hr := by
    obtain ⟨q, hq, pats, hpats, hfits, hrest⟩ := specialize_columns h.rows_ok hcon hne hr
    have hlen : (subLocals n (getSubSubjects subject con)).2.length = pats.length := by
      rw [subLocals_length, getSubSubjects_length, fitsAll_length hfits, T.sub_length hcon]
    refine .inr ⟨hpats ▸ fitsAll_append hfits hrest, fun p hp => ?_⟩
    rw [hpats, List.zip_append hlen] at hp
    rcases List.mem_append.1 hp with hp | hp
    · obtain ⟨v, hv, h1, h2⟩ := subLocals_mem n _ p.1 (List.of_mem_zip hp).1
      rw [hv]
      exact .inl (.inl (.inr ⟨h1, h2⟩))
    · rcases h.subjects_ok q hq p hp with (hw | hw) | hany
      · exact .inl (.inl (hw.mono fun _ hx => .inl hx))
      · exact .inl (.inr hw)
      · exact .inr hany
  rows_ok r hr := (specialize_ok h.rows_ok h.ready hcon hne r hr).mono fun _ hb => hb.mono fun _ hx => .inl hx

theorem BranchCorrect.mono {P : Nat → Deferred → List TExpr → List Row → Env V → Prop} {con : Con} {dt : Dt}
    (h : BranchCorrect T ctx P n d d' t ts subject subjects rows con dt) (hd : Deferred.Sub d'' d') :
    BranchCorrect T ctx P n d d'' t ts subject subjects rows con dt :=
  fun L A hscope ρ ρ' hholds => h L A hscope ρ ρ' (hholds.mono (gained_mono hd))

/-- The branches in turn: each is compiled with the locals that those before it leave to be assigned. -/
theorem compileBranches_correct (hrows : ∀ r ∈ rows, FlatOk T (fun _ => True) (t :: ts) r) (hex : NoExtractor rows)
    (hl : subjects.length = ts.length) (hsub : subject.Below n) (hsubs : ∀ e ∈ subjects, e.Below n)
    (hrec : CorrectBelow T ctx compile P (fuelNeed (subjects.length + 1) (rowsWeight rows))) :
    ∀ (sigma : List (Con × Bool)) (d' : Deferred), Deferred.Sub d' d →
      (∀ p ∈ sigma, T.con t p.1 ∧ p.1 ≠ .conConst .tNull ∧ HasCon p.1 rows) →
      ∃ cases d'', compileBranches compile n subject subjects rows d' sigma = .ok (cases, d'') ∧ Deferred.Sub d'' d' ∧
        List.Forall₂ (fun p sc => SwitchCase.Is (BranchCorrect T ctx P n d d'' t ts subject subjects rows p.1) p.1 sc)
          sigma cases
  | [], d', _, _ => ⟨[], d', rfl, Deferred.Sub.refl d', .nil⟩
  | p :: sigma, d', hd, hp => by
    obtain ⟨⟨hcon, hne, hmem⟩, hsigma⟩ := List.forall_mem_cons.1 hp
    have hfuel : fuelNeed ((subLocals n (getSubSubjects subject p.1)).2 ++ subjects).length
        (rowsWeight (specialize subject p.1 rows)) < fuelNeed (subjects.length + 1) (rowsWeight rows) := by
      refine fuelNeed_lighter ((rowsWeight_specialize subject p.1 rows).2 hmem) ?_
      have := arity_le_rowsWeight hrows hmem hne
      rw [List.length_append, subLocals_length, getSubSubjects_length]
      omega
    obtain ⟨dt, d1, hdt, hd1, hcorrect⟩ := hrec (n + (getSubSubjects subject p.1).length) d' (T.sub t p.1 ++ ts)
      ((subLocals n (getSubSubjects subject p.1)).2 ++ subjects) (specialize subject p.1 rows)
      (branch_matrixOk hrows hl hsubs hcon hne) hfuel
    obtain ⟨cases, d2, hcases, hd2, hall⟩ := compileBranches_correct hrows hex hl hsub hsubs hrec sigma d1
      (hd1.trans hd) hsigma
    refine ⟨.mk p.1 p.2 (.bind (subLocals n (getSubSubjects subject p.1)).1 dt) :: cases, d2, ?_, hd2.trans hd1,
      .cons ⟨rfl, fun L A hscope ρ ρ' hholds hval hold hP => ?_⟩ hall⟩
    · show Except.bind (compile _ d' _ _) _ = _
      rw [hdt]
      show Except.bind (compileBranches compile n subject subjects rows d1 sigma) _ = _
      rw [hcases]
      rfl
    · -- the sub-subjects get their values, and the rest is what the specialised rows call for
      have hafter := hscope.gain ((hd2.trans hd1).trans hd)
      have hsubs' := getSubSubjects_within hafter.subject_ok p.1
      have hbind := Holds.bindSub n (getSubSubjects subject p.1) hholds hafter.scope.below hafter.scope.known hsubs'
      obtain ⟨hagree, hlocals⟩ := bind_subLocals (R := R) n (getSubSubjects subject p.1) ρ' (Nat.le_refl n)
        fun s hs => ⟨(hsubs' s hs).1.mono hafter.scope.below, (hsubs' s hs).2⟩
      rw [getSubSubjects_eval] at hlocals
      have hsubjects : subjects.map (evalExpr R (ρ'.bind R (subLocals n (getSubSubjects subject p.1)).1)) =
          subjects.map (evalExpr R ρ') :=
        List.map_congr_left fun e he => evalExpr_agree hagree (hsubs e he).within
      obtain ⟨hv, hvs⟩ := List.forall₂_cons.1 hval
      have hs := hcorrect _ A (branch_inScope (hscope.gain hd) hcon hne) _ _ (hbind.mono ?_)
      · rw [List.map_append, hlocals, hsubjects] at hs
        have hs := hs (List.rel_append (T.parts hcon hv hold) hvs) fun h => hP h d' hd
        have hbranch := hscope.gain hd
        have hspec := rowSelects_agree hagree (fun r hr b hb =>
          ((specialize_ok hbranch.rows_ok hbranch.ready hcon hne r hr).bound b hb).1.mono hbranch.scope.below) hs
        exact specialize_selects hrows hex trivial (by rw [List.length_map, hl]) hcon hne hv hold hspec
      · rintro v ((hv | hv) | ⟨h1, h2⟩)
        · exact .inl (gained_mono (hd2.trans hd1) v hv)
        · exact .inr hv
        · exact .inl (gained_trans hd (hd2.trans hd1) v (.inr ⟨h1, hd2.none h2⟩))

end

end EvilHaxe.Matcher
