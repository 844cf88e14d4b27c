import StackScript.Proofs.ClosedProgram
import StackScript.Proofs.Dispatch
import StackScript.Proofs.Text

namespace StackScript

open Draft

namespace Names

/-- A qualifier and an identifier that leave in doubt which two underscores stand between them. -/
def Blurs (scope x : String) : Prop := scope.toList.getLast? = some '_' ∧ x.toList.head? = some '_'

instance (scope x : String) : Decidable (Blurs scope x) := inferInstanceAs (Decidable (_ ∧ _))

def counted (n : Nat) (kind : String) : String := toString n ++ "_" ++ kind

/-- A name that a scope generates for one of these kinds of variables. -/
def Generated (kinds : List String) (scope x : String) : Prop :=
  ∃ n, ∃ kind ∈ kinds, x = scope ++ generated n kind

theorem toList_qualify (scope x : String) :
    (qualify scope x).toList = scope.toList ++ '_' :: '_' :: x.toList := by
  have hmark : "__".toList = ['_', '_'] := by decide
  simp only [qualify, String.toList_append, hmark, List.append_assoc]
  rfl

theorem toList_counted (n : Nat) (kind : String) :
    (counted n kind).toList = Nat.toDigits 10 n ++ '_' :: kind.toList := by
  have hn : (toString n).toList = Nat.toDigits 10 n := Nat.toList_repr
  simp only [counted, String.toList_append, hn, List.append_assoc]
  rfl

theorem append_generated (scope : String) (n : Nat) (kind : String) :
    scope ++ generated n kind = qualify scope (counted n kind) := by
  rw [← String.toList_inj, String.toList_append, toList_generated, toList_qualify, toList_counted]
  rfl

theorem qualify_inj {a b x y : String} (hx : IsPlain x) (hy : IsPlain y) (hbx : ¬ Blurs b x)
    (hay : ¬ Blurs a y) (h : qualify a x = qualify b y) : a = b ∧ x = y := by
  -- a longer first part would have to take the underscores of the other one, or leave one of
  -- them behind
  have hend {a b x y : String} {as : List Char} (hx : IsPlain x) (hbx : ¬ Blurs b x)
      (hb : b.toList = a.toList ++ as)
        (he : '_' :: '_' :: x.toList = as ++ '_' :: '_' :: y.toList) : a = b ∧ x = y := by
    rcases as with _ | ⟨_, _ | ⟨_, as⟩⟩
    · rw [List.append_nil, String.toList_inj] at hb
      simp only [List.nil_append, List.cons.injEq, true_and, String.toList_inj] at he
      exact ⟨hb.symm, he⟩
    · simp only [List.cons_append, List.nil_append, List.cons.injEq, true_and] at he
      obtain ⟨rfl, he⟩ := he
      refine absurd ⟨?_, ?_⟩ hbx
      · rw [hb, List.getLast?_concat]
      · rw [he, List.head?_cons]
    · simp only [List.cons_append, List.cons.injEq] at he
      obtain ⟨-, -, he⟩ := he
      refine absurd ⟨as, y.toList, ?_⟩ hx
      rw [he, List.append_assoc]
      rfl
  have hl := congrArg String.toList h
  rw [toList_qualify, toList_qualify] at hl
  obtain ⟨as, hb, he⟩ | ⟨as, ha, he⟩ := List.append_eq_append_iff.mp hl
  · exact hend hx hbx hb he
  · obtain ⟨rfl, rfl⟩ := hend hy hay ha he
    exact ⟨rfl, rfl⟩

variable {x : String}

theorem IsPlain.ne_qualify (hx : IsPlain x) (scope y : String) : x ≠ qualify scope y := by
  rintro rfl
  apply hx
  rw [toList_qualify]
  exact ⟨scope.toList, y.toList, by simp⟩

theorem head_counted (n : Nat) (kind : String) :
    ∃ c, (counted n kind).toList.head? = some c ∧ c.isDigit := by
  rw [toList_counted]
  cases hd : Nat.toDigits 10 n with
  | nil => exact absurd hd Nat.toDigits_ne_nil
  | cons c cs => exact ⟨c, rfl, isDigit_of_mem (by rw [hd]; exact List.mem_cons_self)⟩

theorem not_blurs_counted (scope : String) (n : Nat) (kind : String) :
    ¬ Blurs scope (counted n kind) := by
  rintro ⟨-, h⟩
  obtain ⟨c, hc, hdigit⟩ := head_counted n kind
  rw [hc] at h
  cases h
  cases hdigit

theorem IsProper.ne_counted (hx : IsProper x) (n : Nat) (kind : String) : x ≠ counted n kind := by
  rintro rfl
  obtain ⟨c, hc, hdigit⟩ := head_counted n kind
  have hno := hx.2
  rw [hc, Option.any_some, hdigit] at hno
  cases hno

theorem not_infix_append {cs rest : List Char} (hc : '_' ∉ cs) (hr : ¬ ['_', '_'] <:+: rest) :
    ¬ ['_', '_'] <:+: cs ++ rest := by
  induction cs with
  | nil => exact hr
  | cons c cs ih =>
      rw [List.mem_cons, not_or] at hc
      rw [List.cons_append, List.infix_cons_iff]
      rintro (⟨tail, ht⟩ | h)
      · exact hc.1 (List.cons.inj ht).1
      · exact ih hc.2 h

theorem plain_counted {kind : String} (hk : IsPlain ("_" ++ kind)) (n : Nat) :
    IsPlain (counted n kind) := by
  have hdigit : '_' ∉ Nat.toDigits 10 n := fun hc => absurd (isDigit_of_mem hc) (by decide)
  rw [IsPlain, toList_counted]
  rw [IsPlain, String.toList_append] at hk
  exact not_infix_append hdigit hk

/-- The number and the kind can be told apart, whatever the kind is: it stands behind an underscore,
and no digit is one. -/
theorem counted_inj {n n' : Nat} {kind kind' : String} (h : counted n kind = counted n' kind') :
    n = n' ∧ kind = kind' := by
  have hl := congrArg String.toList h
  rw [toList_counted, toList_counted] at hl
  -- the digits end at the same place
  obtain ⟨hdigits, hrest⟩ := Text.cut_unique (p := Char.isDigit) (fun c hc => isDigit_of_mem hc)
    (fun c hc => isDigit_of_mem hc) (by simp) (by simp) hl
  have hn := congrArg (Nat.ofDigitChars 10 · 0) hdigits
  simp only [Nat.ofDigitChars_ten_toDigits] at hn
  exact ⟨hn, String.toList_inj.mp (List.cons.inj hrest).2⟩

theorem generated_inj {n n' : Nat} {kind kind' : String}
    (h : generated n kind = generated n' kind') :
    n = n' ∧ kind = kind' := by
  have hl := congrArg String.toList h
  rw [toList_generated, toList_generated, ← toList_counted, ← toList_counted] at hl
  exact counted_inj (String.toList_inj.mp (List.append_cancel_left hl))

/-- The scope in front of a generated name can be told as well, unless the kind has two underscores
side by side. -/
theorem append_generated_inj {scope scope' : String} {n n' : Nat} {kind kind' : String}
    (hk : IsPlain ("_" ++ kind)) (hk' : IsPlain ("_" ++ kind'))
    (h : scope ++ generated n kind = scope' ++ generated n' kind') :
    scope = scope' ∧ n = n' ∧ kind = kind' := by
  rw [append_generated, append_generated] at h
  obtain ⟨hscope, hcount⟩ :=
    qualify_inj (plain_counted hk n) (plain_counted hk' n') (not_blurs_counted _ n kind)
    (not_blurs_counted _ n' kind') h
  exact ⟨hscope, counted_inj hcount⟩

variable {kinds kinds' : List String} {scope scope' : String}

theorem plain_temporaries : ∀ kind ∈ temporaries, IsPlain ("_" ++ kind) := by decide

theorem plain_constants : ∀ kind ∈ constants, IsPlain ("_" ++ kind) := by decide

theorem plain_kinds : ∀ kind ∈ temporaries ++ constants, IsPlain ("_" ++ kind) :=
  List.forall_mem_append.mpr ⟨plain_temporaries, plain_constants⟩

theorem IsPlain.not_generated (hx : IsPlain x) : ¬ Generated kinds scope x := by
  rintro ⟨n, kind, _, rfl⟩
  rw [append_generated] at hx
  exact hx.ne_qualify _ _ rfl

theorem IsProper.not_generated (hk : ∀ kind ∈ kinds, IsPlain ("_" ++ kind)) (hx : IsProper x)
    (hb : ¬ Blurs scope x) :
    ¬ Generated kinds scope (qualify scope' x) := by
  rintro ⟨n, kind, hkind, h⟩
  rw [append_generated] at h
  exact hx.ne_counted n kind
    (qualify_inj hx.1 (plain_counted (hk kind hkind) n) hb (not_blurs_counted _ n kind) h).2

theorem Generated.unique (hk : ∀ kind ∈ kinds, IsPlain ("_" ++ kind))
    (hk' : ∀ kind ∈ kinds', IsPlain ("_" ++ kind)) (h : Generated kinds scope x)
    (h' : Generated kinds' scope' x) : scope = scope' ∧ ∃ kind ∈ kinds, kind ∈ kinds' := by
  obtain ⟨n, kind, hkind, rfl⟩ := h
  obtain ⟨n', kind', hkind', h⟩ := h'
  obtain ⟨rfl, -, rfl⟩ := append_generated_inj (hk kind hkind) (hk' kind' hkind') h
  exact ⟨rfl, kind, hkind, hkind'⟩

theorem functionId_ne_empty {name : String} (hn : name ≠ "") (types : List Ty) :
    functionId name types ≠ "" := by
  rw [functionId]
  split
  · exact hn
  · intro h
    rw [← String.toList_inj, String.toList_append, String.toList_append] at h
    simp at h

theorem isEvent_functionId {name : String} (hn : name ≠ "") (types : List Ty) :
    isEvent (functionId name types) = isEvent name := by
  rw [functionId]
  split
  · rfl
  · rw [isEvent, isEvent, String.toList_append, String.toList_append, List.append_assoc]
    cases hl : name.toList with
    | nil => exact absurd (String.toList_eq_nil_iff.mp hl) hn
    | cons => rfl

end Names

theorem Expr.names_subset_of_operand {e x : Expr} {es : List Expr} (h : e.Operands es)
    (hx : x ∈ es) :
    x.names ⊆ e.names := by
  have hall {es : List Expr} (hx : x ∈ es) : x.names ⊆ namesAll es := by
    induction es with
    | nil => cases hx
    | cons e es ih =>
        rw [namesAll]
        obtain rfl | hx := List.mem_cons.mp hx
        · exact List.subset_append_left _ _
        · exact List.subset_append_of_subset_right _ (ih hx)
  cases h with
  | plain => exact List.subset_append_of_subset_right _ (hall hx)
  | static => exact List.subset_append_of_subset_right _ (hall hx)
  | method p q owner name args =>
      obtain hx | hx := List.mem_append.mp hx
      · exact List.subset_append_of_subset_right _ (hall hx)
      · obtain rfl := List.mem_singleton.mp hx
        exact List.subset_append_left _ _
  | subscript => grind [names]
  | unary => grind [names]
  | binary => grind [names]
  | compare => grind [names, namesAll]
  | logic => grind [names, namesAll]

theorem Expr.Includes.names {e x : Expr} (h : e.Includes x) : x.names ⊆ e.names := by
  induction h with
  | refl => exact List.Subset.refl _
  | tail _ h ih =>
      obtain ⟨es, ho, hx⟩ := h
      exact List.Subset.trans (names_subset_of_operand ho hx) ih

namespace Stmt

mutual

def identifiers : Stmt → List String
  | .define _ _ params _ body => params.map Param.name ++ identifiersAll body
  | .assign _ target e | .update _ target _ e => target.names ++ e.names
  | .branch _ test body orelse | .loop _ test body orelse =>
    test.names ++ (identifiersAll body ++ identifiersAll orelse)
  | .ret _ e => (e.map Expr.names).getD []
  | .eval _ e => e.names
  | _ => []

def identifiersAll : List Stmt → List String
  | [] => []
  | st :: ss => identifiers st ++ identifiersAll ss

end

theorem identifiers_subset_of_part {st x : Stmt} (hx : x ∈ st.parts) :
    x.identifiers ⊆ st.identifiers := by
  have hall {ss : List Stmt} (hx : x ∈ ss) : x.identifiers ⊆ identifiersAll ss := by
    induction ss with
    | nil => cases hx
    | cons s ss ih =>
        rw [identifiersAll]
        obtain rfl | hx := List.mem_cons.mp hx
        · exact List.subset_append_left _ _
        · exact List.subset_append_of_subset_right _ (ih hx)
  cases st with
  | define => exact List.subset_append_of_subset_right _ (hall hx)
  | branch | loop =>
      apply List.subset_append_of_subset_right
      obtain hx | hx := List.mem_append.mp hx
      · exact List.subset_append_of_subset_left _ (hall hx)
      · exact List.subset_append_of_subset_right _ (hall hx)
  | _ => cases hx

theorem Includes.identifiers {st x : Stmt} (h : st.Includes x) :
    x.identifiers ⊆ st.identifiers := by
  induction h with
  | refl => exact List.Subset.refl _
  | tail _ hx ih => exact List.Subset.trans (identifiers_subset_of_part hx) ih

theorem mem_identifiers_of_assignment {st : Stmt} {q : Pos} {x : String} {e : Expr}
    (h : st.assignment? = some (.name q x, e)) : x ∈ st.identifiers := by
  cases st with
  | assign | update => cases h; exact List.mem_append_left _ List.mem_cons_self
  | _ => cases h

theorem mem_identifiers_of_param {st : Stmt} {param : Param} (h : param ∈ st.params) :
    param.name ∈ st.identifiers := by
  cases st with
  | define => exact List.mem_append_left _ (List.mem_map.mpr ⟨param, h, rfl⟩)
  | _ => cases h

theorem names_subset_of_operand {st : Stmt} {e : Expr} (h : e ∈ st.operands) :
    e.names ⊆ st.identifiers := by
  have htarget {target : Expr} (h : e ∈ target.accessors) : e.names ⊆ target.names := by
    cases target with
    | subscript => exact Expr.names_subset_of_operand (.subscript ..) h
    | _ => cases h
  cases st with
  | assign p target value =>
      obtain h | h := List.mem_append.mp h
      · exact List.subset_append_of_subset_left _ (htarget h)
      · obtain rfl := List.mem_singleton.mp h
        exact List.subset_append_right _ _
  | update p target op value =>
      obtain h | h := List.mem_append.mp h
      · exact List.subset_append_of_subset_left _ (htarget h)
      · obtain rfl := List.mem_singleton.mp h
        exact List.Subset.refl _
  | branch | loop =>
      obtain rfl := List.mem_singleton.mp h
      exact List.subset_append_left _ _
  | ret p value =>
      obtain rfl := Option.mem_toList.mp h
      exact List.Subset.refl _
  | eval =>
      obtain rfl := List.mem_singleton.mp h
      exact List.Subset.refl _
  | _ => cases h

theorem Holds.names {st : Stmt} {e : Expr} (h : st.Holds e) : e.names ⊆ st.identifiers := by
  obtain ⟨x, hx, e₀, he₀, he⟩ := h
  exact List.Subset.trans he.names (List.Subset.trans (names_subset_of_operand he₀) hx.identifiers)

def isNamed : Stmt → Bool
  | .define _ name _ _ _ => name != ""
  | _ => true

end Stmt

namespace Module

variable {c : Catalog} {m : Module} {p : Program} {fs : Functions} {d : Nat → Draft} {j k : Nat}
  {st st' : Stmt} {x : String}

/-- The identifiers of a script do not make one name in two ways. Names of types may be any texts,
and those of definitions any but the empty one. -/
structure IsProper (c : Catalog) (m : Module) : Prop where
  identifiers : ∀ st ∈ m.body, ∀ x ∈ st.identifiers, Names.IsProper x
  sharp : ∀ st ∈ m.body, ∀ x ∈ st.identifiers, ∀ st' ∈ m.body,
    ¬ Names.Blurs (st'.scope c).qualifier x
  slots : ∀ st ∈ m.body, ∀ v ∈ st.slots c, Names.IsPlain v.1
  named : ∀ st ∈ m.body, st.isNamed

instance (c : Catalog) (m : Module) : Decidable (m.IsProper c) :=
  decidable_of_iff (_ ∧ _ ∧ _ ∧ _)
    ⟨fun h => ⟨h.1, h.2.1, h.2.2.1, h.2.2.2⟩, fun h => ⟨h.1, h.2, h.3, h.4⟩⟩

/-- A variable that the machine, an event or an assignment introduces under its own name. -/
inductive Introduces (c : Catalog) (m : Module) : String → Prop
  | reserved {x ty} (h : (x, ty) ∈ c.reserved) : Introduces c m x
  | slot {st x ty} (hst : st ∈ m.body) (h : (x, ty) ∈ st.slots c) : Introduces c m x
  | name {st y q x e} (hst : st ∈ m.body) (hy : st.Includes y)
      (ha : y.assignment? = some (.name q x, e)) :
      Introduces c m x

theorem Introduces.isPlain (h : m.Introduces c x) (hm : m.IsProper c) : Names.IsPlain x := by
  cases h with
  | reserved h =>
      obtain h | h := List.mem_cons.mp h
      · cases h
        decide
      · obtain ⟨v, hv, h⟩ := List.mem_map.mp h
        cases h
        have hv' := List.mem_of_mem_filter hv
        simp only [List.mem_cons, List.not_mem_nil, or_false] at hv'
        obtain rfl | rfl := hv' <;> decide
  | slot hst h => exact hm.slots _ hst _ h
  | name hst hy ha =>
      exact (hm.identifiers _ hst _ (hy.identifiers (Stmt.mem_identifiers_of_assignment ha))).1

/-- What an act declares: a name that is assigned to, or a generated one. -/
theorem Act.declares {F s t : Draft} {v : Variable} (h : m.Act c fs F k st s t)
    (ht : v ∈ t.vars.declared) (hs : v ∉ s.vars.declared) :
    (∃ y q e, st.Includes y ∧ y.assignment? = some (.name q v.name, e)) ∨
      Names.Generated (Names.temporaries ++ Names.constants) (st.scope c).qualifier v.name := by
  have hnew {kind y : String} {ty : Ty} {init : Init} {u : Draft}
      (hk : kind ∈ Names.temporaries ++ Names.constants)
        (hg : Lower.generate ⟨c, fs, st.scope c⟩ kind ty init s = .ok y u)
        (hu : v ∈ u.vars.declared) :
        Names.Generated (Names.temporaries ++ Names.constants) (st.scope c).qualifier v.name := by
    obtain ⟨rfl, -, hvars⟩ := Lower.generate_eq_ok hg
    rw [hvars] at hu
    obtain hu | hu := List.mem_append.mp hu
    · exact absurd hu hs
    · obtain rfl := List.mem_singleton.mp hu
      exact ⟨s.emitter.counter, kind, hk, rfl⟩
  cases h with
  | quiet h => exact absurd (h.declared ▸ ht) hs
  | const hk h => exact .inr (hnew (List.mem_append_right _ hk) h ht)
  | name hy ha h =>
      obtain ⟨vs, hvs, rfl⟩ := Lower.declare_eq_ok.mp h
      obtain ⟨-, -, rfl⟩ := Variables.declare_eq_ok hvs
      obtain ht | ht := List.mem_append.mp ht
      · exact absurd ht hs
      · obtain rfl := List.mem_singleton.mp ht
        exact .inl ⟨_, _, _, hy, ha⟩
  | code _ _ h | run _ _ _ h => exact absurd (Lower.emit_vars h ▸ ht) hs
  | fill _ hk hx _ _ _ h =>
      exact .inr (hnew (List.mem_append_left _ hk) hx (Lower.emit_vars h ▸ ht))

theorem mem_paramVars (hx : x ∈ st.paramVars c) :
    ∃ name ∈ st.identifiers, x = Names.qualify (st.scope c).qualifier name := by
  obtain ⟨param, hparam, rfl⟩ := List.mem_map.mp hx
  exact ⟨param.name, Stmt.mem_identifiers_of_param hparam, rfl⟩

theorem named_function {f : Function} (hm : m.IsProper c) (hk : m.body[k]? = some st)
    (hf : st.function? c = some f) :
    f.name ≠ "" ∧ Names.isEvent f.name = false := by
  have hnamed := hm.named st (List.mem_of_getElem? hk)
  cases st with
  | define q name params returns body =>
      obtain ⟨hnot, rfl, -⟩ := Stmt.function?_define hf
      exact ⟨bne_iff_ne.mp hnamed, hnot⟩
  | _ => cases hf

namespace Layout

variable (L : Layout c m p fs d)
include L

theorem qualifier_cases (hk : m.body[k]? = some st) :
    (∃ name, st.event? = some name ∧ Names.isEvent name ∧ (st.scope c).qualifier = name) ∨
      (∃ f l, st.function? c = some f ∧ (st.scope c).qualifier = Names.functionId f.name f.types ∧
        (d m.body.length).emitter.named.lookup (Names.functionId f.name f.types) = some l) ∨
      (st.scope c).qualifier = "" ∧ st.params = [] ∧ st.place c = .module := by
  obtain ⟨code, e, hp⟩ := L.placed hk
  cases hp with
  | @event _ q name params returns body ys he =>
      refine .inl ⟨name, by rw [Stmt.event?, if_pos he], he, ?_⟩
      rw [Stmt.scope, Stmt.function?, if_pos he]
      rfl
  | function hf hn =>
      refine .inr (.inl ⟨_, _, hf, ?_, hn⟩)
      rw [Stmt.scope, hf]
      rfl
  | loose hs =>
      refine .inr (.inr ?_)
      cases st with
      | define q name params returns body => exact absurd rfl (hs q name params returns body)
      | _ => exact ⟨rfl, rfl, rfl⟩

theorem event_unique {name : String} (hj : m.body[j]? = some st) (hk : m.body[k]? = some st')
    (he : st.event? = some name) (he' : st'.event? = some name) : j = k := by
  obtain ⟨hevents, hnodup⟩ := L.events_zero
  rw [hevents, List.Nodup, List.pairwise_filterMap, List.pairwise_iff_getElem] at hnodup
  obtain ⟨hlt, rfl⟩ := List.getElem?_eq_some_iff.mp hj
  obtain ⟨hlt', rfl⟩ := List.getElem?_eq_some_iff.mp hk
  rcases lt_trichotomy j k with h | h | h
  · exact absurd rfl (hnodup j k hlt hlt' h name he name he')
  · exact h
  · exact absurd rfl (hnodup k j hlt' hlt h name he' name he)

theorem qualifier_eq_empty (hm : m.IsProper c) (hk : m.body[k]? = some st) :
    (st.scope c).qualifier = "" ↔ st.place c = .module := by
  obtain ⟨name, hev, he, hname⟩ | ⟨f, l, hf, hid, -⟩ | ⟨hnone, -, hplace⟩ := L.qualifier_cases hk
  · rw [hname]
    constructor
    · rintro rfl
      cases he
    · cases st with
      | define q name params returns body =>
          exact fun hp => absurd hp (Stmt.place_define q name params returns body)
      | _ => cases hev
  · rw [hid]
    obtain ⟨hnamed, -⟩ := named_function hm hk hf
    constructor
    · intro h
      exact absurd h (Names.functionId_ne_empty hnamed _)
    · exact fun hp => absurd hp (Stmt.place_ne_module hf)
  · exact ⟨fun _ => hplace, fun _ => hnone⟩

theorem statement_of_qualifier (hm : m.IsProper c) (hj : m.body[j]? = some st)
    (hk : m.body[k]? = some st') (hq : (st.scope c).qualifier = (st'.scope c).qualifier)
    (hne : (st.scope c).qualifier ≠ "") : j = k := by
  -- the text of a function does not start like the name of an event
  have hclash {i : Nat} {st : Stmt} {f : Function} {name : String} (hi : m.body[i]? = some st)
      (hf : st.function? c = some f) (he : Names.isEvent name) :
      Names.functionId f.name f.types ≠ name := by
    rintro rfl
    obtain ⟨hnamed, hnot⟩ := named_function hm hi hf
    rw [Names.isEvent_functionId hnamed, hnot] at he
    cases he
  obtain ⟨name, hev, he, hname⟩ | ⟨f, l, hf, hid, hl⟩ | ⟨hnone, -⟩ := L.qualifier_cases hj
  · obtain ⟨name', hev', he', hname'⟩ | ⟨f, l, hf, hid, -⟩ | ⟨hnone, -⟩ := L.qualifier_cases hk
    · obtain rfl : name = name' := hname.symm.trans (hq.trans hname')
      exact L.event_unique hj hk hev hev'
    · exact absurd (hid.symm.trans (hq.symm.trans hname)) (hclash hk hf he)
    · exact absurd (hq.trans hnone) hne
  · obtain ⟨name, -, he, hname⟩ | ⟨f', l', hf', hid', hl'⟩ | ⟨hnone, -⟩ := L.qualifier_cases hk
    · exact absurd (hid.symm.trans (hq.trans hname)) (hclash hj hf he)
    · rw [← hid', ← hq, hid, hl] at hl'
      cases hl'
      refine L.statement_of_entry hj hf hk hf' hl ?_
      rw [← hid', ← hq, hid, hl]
    · exact absurd (hq.trans hnone) hne
  · exact absurd hnone hne

/-- A qualified name is a parameter of its own definition only. -/
theorem param_of_qualify {name : String} (hm : m.IsProper c) (hj : m.body[j]? = some st)
    (hk : m.body[k]? = some st') (hname : name ∈ st.identifiers)
    (hx : Names.qualify (st.scope c).qualifier name ∈ st'.paramVars c) :
    j = k ∧ name ∈ st'.params.map Param.name := by
  have hst := List.mem_of_getElem? hj
  have hst' := List.mem_of_getElem? hk
  obtain ⟨param, hparam, hx⟩ := List.mem_map.mp hx
  have hid := Stmt.mem_identifiers_of_param hparam
  obtain ⟨hq, hn⟩ :=
    Names.qualify_inj (hm.identifiers _ hst' _ hid).1 (hm.identifiers _ hst _ hname).1
    (hm.sharp _ hst' _ hid _ hst) (hm.sharp _ hst _ hname _ hst') hx
  refine ⟨L.statement_of_qualifier hm hj hk hq.symm fun h => ?_,
    List.mem_map.mpr ⟨param, hparam, hn⟩⟩
  have hplace := (L.qualifier_eq_empty hm hk).mp (hq.trans h)
  cases st' with
  | define q name params returns body => exact Stmt.place_define q name params returns body hplace
  | _ => cases hparam

theorem mem_paramVars_of_locals {ty : Ty} (hk : m.body[k]? = some st) (hx : (x, ty) ∈ st.locals) :
    x ∈ st.paramVars c := by
  obtain ⟨name, hev, he, hq⟩ | ⟨f, l, hf, -⟩ | ⟨-, hparams, -⟩ := L.qualifier_cases hk
  · cases st with
    | define q name' params returns body =>
        rw [Stmt.event?] at hev
        split at hev
        case isTrue he' =>
          cases hev
          rw [Stmt.locals, if_pos he'] at hx
          obtain ⟨param, hparam, hx⟩ := List.mem_filterMap.mp hx
          obtain ⟨_, -, hx⟩ := Option.map_eq_some_iff.mp hx
          cases hx
          exact List.mem_map.mpr ⟨param, hparam, by rw [hq]⟩
        case isFalse => cases hev
    | _ => cases hev
  · rw [Lower.function?_locals c hf] at hx
    rw [Stmt.paramVars_eq hf]
    exact (List.of_mem_zip hx).1
  · cases st with
    | define =>
        obtain rfl := hparams
        cases hx
    | _ => cases hx

theorem announced_cases {ty : Ty} (hx : (d 0).Typed x ty) :
    m.Introduces c x ∨ ∃ st ∈ m.body, x ∈ st.paramVars c := by
  have hlookup := (Lower.header_typed c L.header).mp hx
  obtain ⟨v, hv, hname⟩ := List.lookup_isSome_iff.mp (Option.isSome_of_eq_some hlookup)
  obtain rfl := beq_iff_eq.mp hname
  obtain hv | hv := List.mem_append.mp hv
  · exact .inl (.reserved hv)
  · obtain ⟨st, hst, hv⟩ := List.mem_flatMap.mp hv
    obtain hv | hv := List.mem_append.mp hv
    · exact .inl (.slot hst hv)
    · obtain ⟨k, hk⟩ := List.mem_iff_getElem?.mp hst
      exact .inr ⟨st, hst, L.mem_paramVars_of_locals hk hv⟩

theorem known_iff : (d m.body.length).vars.contains x ↔ x ∈ p.vars.map DataVar.name := by
  rw [Variable.names_of_becomes L.vars, Variables.contains_iff]

/-- Each variable of a compiled script is there under its own name, or is a parameter, or
generated. -/
theorem variable_cases (hx : (d m.body.length).vars.contains x) :
    m.Introduces c x ∨ (∃ st ∈ m.body, x ∈ st.paramVars c) ∨
      ∃ st ∈ m.body, Names.Generated (Names.temporaries ++ Names.constants)
      (st.scope c).qualifier x := by
  obtain ⟨v, hv, rfl⟩ := List.mem_map.mp (Variables.contains_iff.mp hx)
  obtain hv | ⟨k, st, u, w, -, hstep, hw, hu⟩ := (L.trace le_rfl).step_of_variable hv
  · have hty : (d 0).Typed v.name v.ty := ⟨v, (L.moves_empty (Nat.zero_le _)).find?_of_mem hv, rfl⟩
    exact (L.announced_cases hty).imp_right .inl
  · have hst := List.mem_of_getElem? hstep.stands
    obtain ⟨y, q, e, hy, ha⟩ | hgen := hstep.act.declares hw hu
    · exact .inl (.name hst hy ha)
    · exact .inr (.inr ⟨st, hst, hgen⟩)

end Layout
end Module
end StackScript
