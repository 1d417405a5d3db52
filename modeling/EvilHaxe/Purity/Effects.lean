/-
What a body does: its effects, without a word on purity, in the order in which the search of `apply_to_field` comes upon
them. The search is a walk over this list that ends at the first effect the field may not have.
-/
import EvilHaxe.Purity.Infer
import Mathlib.Logic.Relation

namespace EvilHaxe.Purity

open EvilHaxe.Syntax EvilHaxe.Typed

variable {D : Decls}

inductive Effect (D : Decls) where
  | writeLocal (v : Tvar D)
  /-- A write to a field of `this`. -/
  | writeOwn
  | writeOther
  | throws
  | callStatic (c : D.Cls) (cf : D.Fld)
  | construct (c : D.Cls)
  | callSuper
  /-- Any other call. -/
  | callOther
  /-- The calls to an iterator that `for` makes. -/
  | iterates
  /-- An expression under `@:pure`. -/
  | annotated (m : MetadataEntry)

/-- What a write to an expression is. -/
def writeEffect : Texpr D → Effect D
  | .tLocal v => .writeLocal v
  | .tField (.tConst .tThis) _ => .writeOwn
  | _ => .writeOther

mutual

/-- The effects of an expression. What a static field is taken from is a class, and has none. -/
def effects : Texpr D → List (Effect D)
  | .tMeta m e => if isPureMeta m then [.annotated m] else effects e
  | .tThrow e => .throws :: effects e
  | .tBinop op e1 e2 =>
    match op with
    | .opAssign | .opAssignOp _ => writeEffect e1 :: (effects e1 ++ effects e2)
    | _ => effects e1 ++ effects e2
  | .tUnop op _ e1 =>
    match op with
    | .increment | .decrement => writeEffect e1 :: effects e1
    | _ => effects e1
  | .tCall (.tField _ (.fStatic c cf)) el => effectsAll el ++ [.callStatic c cf]
  | .tNew c el => effectsAll el ++ [.construct c]
  | .tCall (.tConst .tSuper) el => .callSuper :: effectsAll el
  | .tCall (.tIdent s) el =>
    if isUnboundCallThatMightHaveSideEffects s el then .callOther :: effectsAll el else effectsAll el
  | .tCall e el => .callOther :: (effects e ++ effectsAll el)
  | .tFor _ e1 e2 => .iterates :: (effects e1 ++ effects e2)
  | .tConst _ | .tLocal _ | .tBreak | .tContinue | .tTypeExpr _ | .tIdent _ => []
  | .tArray e1 e2 | .tWhile e1 e2 _ => effects e1 ++ effects e2
  | .tField e _ | .tEnumParameter e _ _ | .tEnumIndex e | .tParenthesis e | .tCast e _ => effects e
  | .tArrayDecl el | .tBlock el => effectsAll el
  | .tObjectDecl fl => effectsFields fl
  | .tVar _ eo | .tReturn eo => effectsOption eo
  | .tFunction _ e => effects e
  | .tIf e e1 e2 => effects e ++ effects e1 ++ effectsOption e2
  | .tSwitch subject cases dflt _ => effects subject ++ effectsCases cases ++ effectsOption dflt
  | .tTry e catches => effects e ++ effectsCatches catches

def effectsAll : List (Texpr D) → List (Effect D)
  | [] => []
  | e :: el => effects e ++ effectsAll el

def effectsOption : Option (Texpr D) → List (Effect D)
  | none => []
  | some e => effects e

def effectsFields : List (TobjectField D) → List (Effect D)
  | [] => []
  | .mk _ e :: fl => effects e ++ effectsFields fl

def effectsCases : List (TswitchCase D) → List (Effect D)
  | [] => []
  | .mk patterns e :: cases => effectsAll patterns ++ effects e ++ effectsCases cases

def effectsCatches : List (Tcatch D) → List (Effect D)
  | [] => []
  | .mk _ e :: catches => effects e ++ effectsCatches catches

end

/-! ## The search -/

namespace Run

@[simp] theorem bind_next (lut : NodeLut D) (f : NodeLut D → Run D) : (next lut).bind f = f lut := rfl

@[simp] theorem bind_exit (lut : NodeLut D) (f : NodeLut D → Run D) : (exit lut).bind f = exit lut := rfl

@[simp] theorem bind_next_right (r : Run D) : r.bind next = r := by cases r <;> rfl

@[simp] theorem bind_raise (e : Error D) (f : NodeLut D → Run D) : (raise e).bind f = raise e := rfl

theorem bind_assoc (r : Run D) (f g : NodeLut D → Run D) : (r.bind f).bind g = r.bind fun lut => (f lut).bind g := by
  cases r <;> rfl

end Run

inductive Verdict (D : Decls) where
  | fine
  | harm
  | calls (c : D.Cls) (cf : D.Fld)
  | wrong (e : Error D)

namespace Program

variable (p : Program D) (cur : Current D)

/-- What an effect of a body of class `c` is to the search. -/
def verdict (isCtor : Bool) (c : D.Cls) : Effect D → Verdict D
  | .writeLocal v => if p.hasReferenceSemantics v.vType then .harm else .fine
  | .writeOwn => if isCtor then .fine else .harm
  | .writeOther | .throws | .callOther => .harm
  | .callStatic c cf => .calls c cf
  | .construct c =>
    match (p.cls c).clConstructor with
    | some cf => .calls c cf
    | none => .harm
  | .callSuper =>
    match (p.cls c).clSuper with
    | some c =>
      match (p.cls c).clConstructor with
      | some cf => .calls c cf
      | none => .harm
    | none => .harm
  | .iterates => .fine
  | .annotated m =>
    match getPurityFromMeta [m] with
    | .ok .impure => .harm
    | .ok _ => .fine
    | .error e => .wrong e

/-- The search at one effect. -/
def inspect (lut : NodeLut D) (x : Effect D) : Run D :=
  match p.verdict cur.isCtor cur.c x with
  | .fine => .next lut
  | .harm => p.taintRaise cur lut
  | .calls c cf => p.checkField cur lut c cf
  | .wrong e => .raise e

def walk (lut : NodeLut D) : List (Effect D) → Run D
  | [] => .next lut
  | x :: l => (p.inspect cur lut x).bind fun lut => walk lut l

@[simp] theorem walk_nil (lut : NodeLut D) : p.walk cur lut [] = .next lut := rfl

@[simp] theorem walk_cons (lut : NodeLut D) (x : Effect D) (l : List (Effect D)) :
    p.walk cur lut (x :: l) = (p.inspect cur lut x).bind fun lut => p.walk cur lut l := rfl

@[simp] theorem walk_append : ∀ (l l' : List (Effect D)) (lut : NodeLut D),
    p.walk cur lut (l ++ l') = (p.walk cur lut l).bind fun lut => p.walk cur lut l'
  | [], _, _ => rfl
  | x :: l, l', lut => by simp [walk, walk_append l l', Run.bind_assoc]

/-- A tainted field is not looked at any more. -/
theorem taintRaise_bind (lut : NodeLut D) (f : NodeLut D → Run D) :
    (p.taintRaise cur lut).bind f = p.taintRaise cur lut := by
  unfold taintRaise
  cases p.taint cur.fuel lut cur.id <;> rfl

/-- A write to a variable or to a field of `this` has no effect besides the write; any other ends the search. -/
theorem checkWrite_eq (lut : NodeLut D) (e : Texpr D) :
    p.checkWrite cur lut e = (p.inspect cur lut (writeEffect e)).bind fun lut => p.walk cur lut (effects e) := by
  cases e with
  | tLocal v =>
    simp only [checkWrite, writeEffect, inspect, verdict, effects, walk_nil]
    split <;> simp
  | tField e fa =>
    cases e with
    | tConst c =>
      cases c with
      | tThis =>
        simp only [checkWrite, writeEffect, inspect, verdict, effects, walk_nil]
        split <;> simp
      | _ => simp only [checkWrite, writeEffect, inspect, verdict, taintRaise_bind]
    | _ => simp only [checkWrite, writeEffect, inspect, verdict, taintRaise_bind]
  | _ => simp only [checkWrite, writeEffect, inspect, verdict, taintRaise_bind]

mutual

theorem loop_eq : ∀ (lut : NodeLut D) (e : Texpr D), p.loop cur lut e = p.walk cur lut (effects e)
  | lut, .tMeta m e => by
    simp only [loop, effects]
    split
    · simp only [walk_cons, inspect, verdict, walk_nil]
      cases getPurityFromMeta [m] with
      | error e => rfl
      | ok s => cases s <;> simp
    · exact loop_eq lut e
  | lut, .tThrow e => by simp [loop, effects, inspect, verdict, taintRaise_bind]
  | lut, .tBinop op e1 e2 => by
    cases op with
    | opAssign | opAssignOp => simp [loop, effects, checkWrite_eq, Run.bind_assoc, loop_eq _ e2]
    | _ => simp [loop, effects, loop_eq _ e1, loop_eq _ e2]
  | lut, .tUnop op _ e1 => by
    cases op with
    | increment | decrement => simp [loop, effects, checkWrite_eq]
    | _ => simp [loop, effects, loop_eq _ e1]
  | lut, .tNew c el => by
    simp only [loop, effects, loops_eq _ el, walk_append, walk_cons, inspect, verdict, walk_nil]
    cases (p.cls c).clConstructor with
    | none => simp
    | some cf => simp
  | lut, .tCall e el => by
    cases e with
    | tConst c =>
      cases c with
      | tSuper =>
        simp only [loop, effects, loops_eq _ el, walk_cons, inspect, verdict]
        cases (p.cls cur.c).clSuper with
        | none => simp [taintRaise_bind]
        | some c => cases h : (p.cls c).clConstructor <;> simp [h, taintRaise_bind]
      | _ => simp [loop, effects, inspect, verdict, taintRaise_bind]
    | tIdent s =>
      simp only [loop, effects]
      split
      · simp [inspect, verdict, taintRaise_bind]
      · exact loops_eq lut el
    | tField e fa =>
      cases fa with
      | fStatic c cf => simp [loop, effects, inspect, verdict, loops_eq _ el]
      | _ => simp [loop, effects, inspect, verdict, taintRaise_bind]
    | _ => simp [loop, effects, inspect, verdict, taintRaise_bind]
  | lut, .tConst _ | lut, .tLocal _ | lut, .tBreak | lut, .tContinue | lut, .tTypeExpr _ | lut, .tIdent _ => by
    simp [loop, effects]
  | lut, .tArray e1 e2 | lut, .tWhile e1 e2 _ => by simp [loop, effects, loop_eq _ e1, loop_eq _ e2]
  | lut, .tFor _ e1 e2 => by simp [loop, effects, inspect, verdict, loop_eq _ e1, loop_eq _ e2]
  | lut, .tField e _ | lut, .tEnumParameter e _ _ | lut, .tEnumIndex e | lut, .tParenthesis e | lut, .tCast e _ => by
    simp [loop, effects, loop_eq _ e]
  | lut, .tArrayDecl el | lut, .tBlock el => by simp [loop, effects, loops_eq _ el]
  | lut, .tObjectDecl fl => by simp [loop, effects, loopFields_eq _ fl]
  | lut, .tVar _ eo | lut, .tReturn eo => by simp [loop, effects, loopOption_eq _ eo]
  | lut, .tFunction _ e => by simp [loop, effects, loop_eq _ e]
  | lut, .tIf e e1 e2 => by simp [loop, effects, loop_eq _ e, loop_eq _ e1, loopOption_eq _ e2]
  | lut, .tSwitch subject cases dflt _ => by
    simp [loop, effects, loop_eq _ subject, loopCases_eq _ cases, loopOption_eq _ dflt]
  | lut, .tTry e catches => by simp [loop, effects, loop_eq _ e, loopCatches_eq _ catches]

theorem loops_eq : ∀ (lut : NodeLut D) (el : List (Texpr D)), p.loops cur lut el = p.walk cur lut (effectsAll el)
  | _, [] => rfl
  | lut, e :: el => by simp [loops, effectsAll, loop_eq _ e, loops_eq _ el]

theorem loopOption_eq : ∀ (lut : NodeLut D) (eo : Option (Texpr D)),
    p.loopOption cur lut eo = p.walk cur lut (effectsOption eo)
  | _, none => rfl
  | lut, some e => by simp [loopOption, effectsOption, loop_eq _ e]

theorem loopFields_eq : ∀ (lut : NodeLut D) (fl : List (TobjectField D)),
    p.loopFields cur lut fl = p.walk cur lut (effectsFields fl)
  | _, [] => rfl
  | lut, .mk _ e :: fl => by simp [loopFields, effectsFields, loop_eq _ e, loopFields_eq _ fl]

theorem loopCases_eq : ∀ (lut : NodeLut D) (cases : List (TswitchCase D)),
    p.loopCases cur lut cases = p.walk cur lut (effectsCases cases)
  | _, [] => rfl
  | lut, .mk patterns e :: cases => by
    simp [loopCases, effectsCases, loops_eq _ patterns, loop_eq _ e, loopCases_eq _ cases]

theorem loopCatches_eq : ∀ (lut : NodeLut D) (catches : List (Tcatch D)),
    p.loopCatches cur lut catches = p.walk cur lut (effectsCatches catches)
  | _, [] => rfl
  | lut, .mk _ e :: catches => by simp [loopCatches, effectsCatches, loop_eq _ e, loopCatches_eq _ catches]

end

end Program

end EvilHaxe.Purity

/-! Which fields an inference finds impure, said without the table of nodes and without an order: those that are impure by
themselves, those that use an impure one, and the fields that a tainted one overrides. -/

namespace EvilHaxe.Purity

open EvilHaxe.Syntax EvilHaxe.Typed

variable {D : Decls}

/-- What `apply_to_field` does with a field that is not known to be impure. -/
inductive Task (D : Decls) where
  | taint
  | pass
  | body (e : Texpr D)

namespace Program

variable (p : Program D)

/-- The purity that the metadata give. -/
def declared (a : Entry D) : Except (Error D) PurityState := p.getPurity a.c a.cf

def entryId (a : Entry D) : String := p.getFieldId a.c a.cf

/-- Where the code that runs is not known, a declaration has to do. -/
def taskUnknown (s : PurityState) : Task D := if s = .pure then .pass else .taint

def taskExpr (s : PurityState) (a : Entry D) : Task D :=
  match (p.fld a.cf).cfExpr with
  | none => taskUnknown s
  | some e =>
    if p.hasForeignCode a.c a.cf then taskUnknown s
    else if s = .pure then .pass
    else .body e

def task (s : PurityState) (a : Entry D) : Task D :=
  match (p.fld a.cf).cfKind with
  | .method .methDynamic | .var => .taint
  | kind =>
    if kind = .method .methNormal ∧ ¬ (a.isStatic ∨ a.isCtor ∨ (p.fld a.cf).cfFinal) then .taint
    else p.taskExpr s a

/-- `a` has the body `e`, which is looked at. -/
def Examines (a : Entry D) (e : Texpr D) : Prop := ∃ s, p.declared a = .ok s ∧ s ≠ .impure ∧ p.task s a = .body e

/-- The body of `a` has an effect with the verdict. -/
def Does (a : Entry D) (v : Verdict D) : Prop :=
  ∃ e, p.Examines a e ∧ ∃ x ∈ effects e, p.verdict a.isCtor a.c x = v

/-- The fields of that name in the super classes. -/
def SuperField (c : D.Cls) (name : String) (d : D.Cls) (g : D.Fld) : Prop :=
  Relation.TransGen (fun c d => (p.cls c).clSuper = some d) c d ∧
    ((p.cls d).clFields.find? fun cf => (p.fld cf).cfName = name) = some g

inductive Tainted (l : List (Entry D)) : D.Cls → D.Fld → Prop where
  | task {a : Entry D} {s : PurityState} (ha : a ∈ l) (hs : p.declared a = .ok s) (hne : s ≠ .impure)
      (ht : p.task s a = .taint) : Tainted l a.c a.cf
  | harm {a : Entry D} (ha : a ∈ l) (h : p.Does a .harm) : Tainted l a.c a.cf
  | callImpure {a : Entry D} {c : D.Cls} {cf : D.Fld} (ha : a ∈ l) (h : p.Does a (.calls c cf))
      (hs : p.getPurity c cf = .ok .impure) : Tainted l a.c a.cf
  | call {a : Entry D} {c : D.Cls} {cf : D.Fld} (ha : a ∈ l) (h : p.Does a (.calls c cf))
      (hs : p.getPurity c cf = .ok .maybePure) (ht : Tainted l c cf) : Tainted l a.c a.cf
  | super {c d : D.Cls} {cf g : D.Fld} {s : PurityState} (h : Tainted l c cf)
      (hg : p.SuperField c (p.fld cf).cfName d g) (hs : p.getPurity d g = .ok s) (hne : s ≠ .impure) : Tainted l d g

/-- Impure in the end. -/
def IsImpure (l : List (Entry D)) (c : D.Cls) (cf : D.Fld) : Prop :=
  p.getPurity c cf = .ok .impure ∨ p.Tainted l c cf

/-- The errors that an inference may end with: an argument of `@:pure` that is none, or a conflict. -/
inductive Fault (l : List (Entry D)) : Error D → Prop where
  | declared {a : Entry D} {e : Error D} (ha : a ∈ l) (h : p.declared a = .error e) : Fault l e
  | annotated {a : Entry D} {e : Error D} (ha : a ∈ l) (h : p.Does a (.wrong e)) : Fault l e
  | conflict {a : Entry D} (ha : a ∈ l) (hs : p.declared a = .ok .expectPure) (ht : p.Tainted l a.c a.cf) :
      Fault l (.purityConflict a.c a.cf)

/-- A key stands for one field, the fields that others call or override are there, and what is called as declared pure
is not tainted for being a variable or a dynamic method. -/
structure Closed (l : List (Entry D)) : Prop where
  ids : ∀ a ∈ l, ∀ b ∈ l, p.entryId a = p.entryId b → a = b
  called : ∀ a ∈ l, ∀ c cf, p.Does a (.calls c cf) → ∃ b ∈ l, b.c = c ∧ b.cf = cf
  supers : ∀ a ∈ l, ∀ d g, p.SuperField a.c (p.fld a.cf).cfName d g → ∃ b ∈ l, b.c = d ∧ b.cf = g
  trusted : ∀ a ∈ l, ∀ c cf, p.Does a (.calls c cf) → p.getPurity c cf = .ok .pure → ¬ p.Tainted l c cf

variable {p}

theorem Tainted.mem {l : List (Entry D)} (hp : p.Closed l) {c : D.Cls} {cf : D.Fld} (h : p.Tainted l c cf) :
    ∃ a ∈ l, a.c = c ∧ a.cf = cf := by
  induction h with
  | @task a _ ha _ _ _ => exact ⟨a, ha, rfl, rfl⟩
  | @harm a ha _ => exact ⟨a, ha, rfl, rfl⟩
  | @callImpure a _ _ ha _ _ => exact ⟨a, ha, rfl, rfl⟩
  | @call a _ _ ha _ _ _ _ => exact ⟨a, ha, rfl, rfl⟩
  | super h hg _ _ ih =>
    obtain ⟨a, ha, rfl, rfl⟩ := ih
    exact hp.supers a ha _ _ hg

theorem Tainted.mono {l l' : List (Entry D)} (hsub : l ⊆ l') {c : D.Cls} {cf : D.Fld} (h : p.Tainted l c cf) :
    p.Tainted l' c cf := by
  induction h with
  | task ha hs hne ht => exact .task (hsub ha) hs hne ht
  | harm ha h => exact .harm (hsub ha) h
  | callImpure ha h hs => exact .callImpure (hsub ha) h hs
  | call ha h hs _ ih => exact .call (hsub ha) h hs ih
  | super _ hg hs hne ih => exact ih.super hg hs hne

theorem Examines.ne_impure {a : Entry D} {e : Texpr D} (h : p.Examines a e) : p.declared a ≠ .ok .impure := by
  obtain ⟨s, hs, hne, -⟩ := h
  rw [hs]
  intro h
  exact hne (Except.ok.inj h)

/-- What is tainted was not declared impure. -/
theorem Tainted.ne_impure {l : List (Entry D)} {c : D.Cls} {cf : D.Fld} (h : p.Tainted l c cf) :
    p.getPurity c cf ≠ .ok .impure := by
  have of_ne : ∀ {r : Except (Error D) PurityState} {s}, r = .ok s → s ≠ .impure → r ≠ .ok .impure := by
    rintro _ s rfl hne h
    exact hne (Except.ok.inj h)
  cases h with
  | task _ hs hne _ => exact of_ne hs hne
  | harm _ h => exact h.choose_spec.1.ne_impure
  | callImpure _ h _ => exact h.choose_spec.1.ne_impure
  | call _ h _ _ => exact h.choose_spec.1.ne_impure
  | super _ _ hs hne => exact of_ne hs hne

end Program

end EvilHaxe.Purity
