import StackScript.Proofs.Identifiers
import StackScript.Proofs.LabelClosure

namespace StackScript

open Draft

theorem Diagnostic.problem_locate (d : Diagnostic) (p : Pos) :
    (d.locate p).problem = d.problem := by
  rw [locate]
  split <;> rfl

def Function.Legible (f : Function) : Prop :=
  Names.IsPlain f.name ∧ ∀ ty ∈ f.types, ty.name ≠ "" ∧ '_' ∉ ty.name.toList

instance (f : Function) : Decidable f.Legible := inferInstanceAs (Decidable (_ ∧ _))

namespace Names

def joined (types : List Ty) : String := "_".intercalate (types.map Ty.name)

theorem functionId_cons (name : String) (ty : Ty) (types : List Ty) :
    functionId name (ty :: types) = qualify name (joined (ty :: types)) := rfl

theorem toList_joined (types : List Ty) :
    (joined types).toList = ['_'].intercalate (types.map fun ty => ty.name.toList) := by
  have hmark : "_".toList = ['_'] := by decide
  rw [joined, String.toList_intercalate, List.map_map, hmark]
  rfl

section

variable {ty : Ty} {types : List Ty} (h : ∀ x ∈ ty :: types, x.name ≠ "" ∧ '_' ∉ x.name.toList)
include h

theorem head_joined : (joined (ty :: types)).toList.head? ≠ some '_' := by
  obtain ⟨hne, hno⟩ := h ty List.mem_cons_self
  have hlist : ty.name.toList ≠ [] := fun h => hne (String.toList_eq_nil_iff.mp h)
  obtain ⟨c, cs, hc⟩ := List.exists_cons_of_ne_nil hlist
  rw [hc, List.mem_cons, not_or] at hno
  have hhead : (joined (ty :: types)).toList.head? = some c := by
    rw [toList_joined]
    cases types with
    | nil => simp [hc]
    | cons ty' types => simp [List.intercalate_cons_cons, hc]
  rw [hhead]
  exact fun h => hno.1 (Option.some.inj h).symm

theorem not_blurs_joined (scope : String) : ¬ Blurs scope (joined (ty :: types)) :=
  fun hb => head_joined h hb.2

theorem plain_joined : IsPlain (joined (ty :: types)) := by
  induction types generalizing ty with
  | nil =>
      have hno := (h ty List.mem_cons_self).2
      have hnil : ¬ ['_', '_'] <:+: [] := by simp
      rw [IsPlain, toList_joined]
      simpa using not_infix_append hno hnil
  | cons ty' types ih =>
      have hno := (h ty List.mem_cons_self).2
      have hrest (x) (hx : x ∈ ty' :: types) := h x (List.mem_cons_of_mem ty hx)
      have hplain := ih hrest
      have hhead := head_joined hrest
      rw [IsPlain, toList_joined, List.map_cons, List.map_cons, List.intercalate_cons_cons,
        List.append_assoc]
      rw [IsPlain] at hplain
      rw [toList_joined, List.map_cons] at hplain hhead
      refine not_infix_append hno ?_
      rw [List.singleton_append, List.infix_cons_iff]
      rintro (⟨tail, ht⟩ | hinfix)
      · -- the mark between two types, and then an underscore
        rw [← (List.cons.inj ht).2] at hhead
        exact hhead rfl
      · exact hplain hinfix

end

theorem joined_inj {types types' : List Ty} (h : ∀ ty ∈ types, '_' ∉ ty.name.toList)
    (h' : ∀ ty ∈ types', '_' ∉ ty.name.toList) (hne : types ≠ []) (hne' : types' ≠ [])
    (he : joined types = joined types') : types.map Ty.name = types'.map Ty.name := by
  have hsplit {types : List Ty} (h : ∀ ty ∈ types, '_' ∉ ty.name.toList) (hne : types ≠ []) :
      (joined types).toList.splitOn '_' = types.map fun ty => ty.name.toList := by
    rw [toList_joined]
    refine List.splitOn_intercalate '_' (fun cs hcs => ?_) (by simpa using hne)
    obtain ⟨ty, hty, rfl⟩ := List.mem_map.mp hcs
    exact h ty hty
  have hl := hsplit h hne
  rw [he, hsplit h' hne'] at hl
  have hinj : Function.Injective String.toList := fun a b hab => String.toList_inj.mp hab
  refine List.map_injective_iff.mpr hinj ?_
  rw [List.map_map, List.map_map]
  exact hl.symm

end Names

theorem Stmt.types_of_function? {c : Catalog} {st : Stmt} {f : Function}
    (h : st.function? c = some f) :
    (f.types.map Ty.name).map Ty.named = f.types := by
  cases st with
  | define p name params returns body =>
      obtain ⟨_, _, hsig, _⟩ := function?_define h
      rw [(Lower.signature_eq_ok hsig).1, List.map_map]
      exact (List.map_congr_left fun ty hty => (Param.eq_named_of_mem hty).symm).trans
        (List.map_id _)
  | _ => cases h

theorem Function.Legible.key_eq {f g : Function} (hf : f.Legible) (hg : g.Legible)
    (h : Names.functionId f.name f.types = Names.functionId g.name g.types) :
    f.name = g.name ∧ f.types.map Ty.name = g.types.map Ty.name := by
  obtain ⟨name, types, ret, params⟩ := f
  obtain ⟨name', types', ret', params'⟩ := g
  obtain ⟨hplain, htypes⟩ := hf
  obtain ⟨hplain', htypes'⟩ := hg
  dsimp only at *
  cases types with
  | nil =>
      cases types' with
      | nil => exact ⟨h, rfl⟩
      | cons ty' types' => exact absurd h (hplain.ne_qualify _ _)
  | cons ty types =>
      cases types' with
      | nil => exact absurd h.symm (hplain'.ne_qualify _ _)
      | cons ty' types' =>
          rw [Names.functionId_cons, Names.functionId_cons] at h
          obtain ⟨hname, hjoined⟩ :=
            Names.qualify_inj (Names.plain_joined htypes) (Names.plain_joined htypes')
            (Names.not_blurs_joined htypes _) (Names.not_blurs_joined htypes' _) h
          exact ⟨hname, Names.joined_inj (fun x hx => (htypes x hx).2)
            (fun x hx => (htypes' x hx).2) (by simp) (by simp)
            hjoined⟩

namespace Lower

variable {c : Catalog} {fs : Functions} {s t : Draft} {id : String}

theorem event_shelters {name : String} {params : List Param} {body : List Stmt} {x : Unit}
    (h : event c fs name params body s = .ok x t) : Shelters s t := by
  simp only [event, bind_eq_ok] at h
  obtain ⟨_, s₁, h₁, _, s₂, h₂, _, s₃, h₃, _, s₄, hb, h₄⟩ := h
  have hbody := (lowered_block hb).shelters.trans (emit_shelters h₄)
  exact (emit_shelters h₁).trans ((emit_shelters h₂).trans ((emit_shelters h₃).trans hbody))

theorem function_taken {p : Pos} {name : String} {params : List Param} {returns : Option String}
    {body : List Stmt} {f : Function} {x : Unit} (hs : Moves .empty s)
    (hf : Stmt.function? c (.define p name params returns body) = some f)
    (hfs : fs.find? f.name f.types = some f)
    (h : function c fs name params returns body s = .ok x t) :
    t.Taken (Names.functionId f.name f.types) ∧
      ∀ id, t.Taken id → s.Taken id ∨ Names.functionId f.name f.types = id := by
  obtain ⟨l, u₁, u₂, s₁, s₂, hl, hb, hp, hy, hr⟩ := function_eq_ok hf hfs h
  have hbody := (emit_shelters hp).trans ((lowered_block hy).shelters.trans (emit_shelters hr))
  obtain ⟨e₁, hn⟩ := namedLabel_emits hl
  obtain ⟨e₂, hbound, _⟩ := bindLabel_emits hb
  have hn₂ := (Moves.grows e₂.moves).named hn
  have m₂ := hs.trans (e₁.moves.trans e₂.moves)
  refine ⟨Taken.moves ⟨l, _, hn₂, hbound⟩ hbody.moves, fun id hid => ?_⟩
  obtain ⟨l', a, hl', ha⟩ := hid.of_shelters hbody (Moves.numbered m₂ numbered_empty)
  obtain ha | rfl := bindLabel_bound hb ha
  · have ha := namedLabel_bound hl ha
    exact .inl ⟨l', a, (Moves.grows (e₁.moves.trans e₂.moves)).shared ha.made hl', ha⟩
  · -- a label has only one name
    obtain ⟨_, h₁⟩ := Moves.titled m₂ _ _ hn₂
    obtain ⟨_, h₂⟩ := Moves.titled m₂ _ _ hl'
    rw [h₁] at h₂
    cases h₂
    exact .inr rfl

theorem topLevel_taken {st : Stmt} {x : Unit} (hs : Moves .empty s)
    (hfs : ∀ f, st.function? c = some f → fs.find? f.name f.types = some f)
    (h : topLevel c fs st s = .ok x t) (hid : t.Taken id) :
    s.Taken id ∨ ∃ f, st.function? c = some f ∧ Names.functionId f.name f.types = id := by
  have hn := Moves.numbered hs numbered_empty
  cases st with
  | define p name params returns body =>
      rw [topLevel] at h
      split at h
      case isTrue => exact .inl (hid.of_shelters (event_shelters h) hn)
      case isFalse he =>
        obtain ⟨f, hf⟩ := function?_of_ok he h
        exact ((function_taken hs (hf p) (hfs f (hf p)) h).2 id hid).imp_right fun h => ⟨f, hf p, h⟩
  | assign p target e =>
      rw [topLevel] at h
      obtain ⟨b, s₁, hi, h⟩ := bind_eq_ok.mp h
      have hdata : Shelters s s₁ := (Along.dataInit target e).of_ok hi
      split at h
      · obtain ⟨_, rfl⟩ := pure_eq_ok.mp h
        exact .inl (hid.of_shelters hdata hn)
      · exact .inl (hid.of_shelters (hdata.trans (lowered_stmt h).shelters) hn)
  | _ => exact .inl (hid.of_shelters (lowered_stmt h).shelters hn)

theorem taken_of_topLevel {st : Stmt} {f : Function} {x : Unit} (hs : Moves .empty s)
    (hf : st.function? c = some f) (hfs : fs.find? f.name f.types = some f)
    (h : topLevel c fs st s = .ok x t) :
    t.Taken (Names.functionId f.name f.types) := by
  cases st with
  | define p name params returns body =>
      rw [topLevel, (Stmt.function?_define hf).1] at h
      exact (function_taken hs hf hfs h).1
  | _ => cases hf

theorem topLevel_of_clashes {st : Stmt} {g : Function} (hs : Moves .empty s) (hg : st.Clashes c s g)
    (hfs : fs.find? g.name g.types = some g) : ∃ t, topLevel c fs st s = .error g.boundTwice t := by
  obtain ⟨hf, l, a, hl, ha⟩ := hg
  cases st with
  | define p name params returns body =>
      obtain ⟨he, rfl, hsig, _⟩ := Stmt.function?_define hf
      have hnamed : namedLabel (Names.functionId g.name g.types) s = .ok l s := by
        refine modifyGet_eq_ok.mpr ?_
        rw [Emitter.namedLabel, hl]
        exact ⟨rfl, rfl⟩
      have hbind : bindLabel l s = .error g.boundTwice s := by
        obtain ⟨n, hn⟩ := bound_iff.mp ha
        obtain ⟨_, ht⟩ := Moves.titled hs _ _ hl
        rw [hn] at ht
        cases ht
        rw [bindLabel, Emitter.bind, hn]
        rfl
      refine ⟨s, ?_⟩
      rw [topLevel, he]
      refine bind_eq_error.mpr (.inr ⟨(g.types, g.ret), s, accept_eq_ok.mpr ⟨hsig, rfl⟩, ?_⟩)
      simp only [hfs]
      exact bind_eq_error.mpr (.inr ⟨l, s, hnamed, bind_eq_error.mpr (.inl hbind)⟩)
  | _ => cases hf

end Lower

namespace Module

open Lower

variable {c : Catalog} {m : Module} {fs : Functions} {s : Draft} {k : Nat} {id : String}

theorem taken_iff_of_lowered (h : m.lowered c k = some (fs, s)) (hk : k ≤ m.body.length) :
    s.Taken id ↔ ∃ j st f, j < k ∧ m.body[j]? = some st ∧ st.function? c = some f ∧
      Names.functionId f.name f.types = id := by
  induction k generalizing s with
  | zero =>
      refine ⟨fun hid => ?_, fun ⟨j, _, _, hj, _⟩ => absurd hj (Nat.not_lt_zero j)⟩
      obtain ⟨s₀, hs₀, hstill, _⟩ := header_of_lowered h
      obtain rfl : s = s₀ := by simpa [h] using hs₀
      obtain ⟨l, a, _, ha⟩ := hid
      obtain ⟨n, hn⟩ := bound_iff.mp (hstill.bound ha)
      cases hn
  | succ k ih =>
      obtain ⟨u, hu, _⟩ := lowered_of_le h (Nat.le_succ k)
      have hst := List.getElem?_eq_getElem hk
      have htop := topLevel_of_lowered hu h hst
      have hm : Moves .empty u := along_of_lowered hu
      have hfs f (hf : m.body[k].function? c = some f) :=
        find?_of_lowered hu (List.getElem_mem hk) hf
      constructor
      · intro hid
        obtain hid | ⟨f, hf, hid⟩ := topLevel_taken hm hfs htop hid
        · obtain ⟨j, st, f, hj, hrest⟩ := (ih hu (Nat.le_of_succ_le hk)).mp hid
          exact ⟨j, st, f, Nat.lt_succ_of_lt hj, hrest⟩
        · exact ⟨k, _, f, Nat.lt_succ_self k, hst, hf, hid⟩
      · rintro ⟨j, st, f, hj, hjst, hf, hid⟩
        obtain hj | rfl := Nat.lt_succ_iff_lt_or_eq.mp hj
        · exact Taken.moves ((ih hu (Nat.le_of_succ_le hk)).mpr ⟨j, st, f, hj, hjst, hf, hid⟩)
            (topLevel_along htop)
        · rw [hst] at hjst
          cases hjst
          exact hid ▸ taken_of_topLevel hm hf (hfs f hf) htop

theorem compile_of_clashes {st : Stmt} {g : Function} (hk : m.body[k]? = some st)
    (h : m.lowered c k = some (fs, s)) (hg : st.Clashes c s g) :
    m.compile c = .error (g.boundTwice.locate st.pos) := by
  obtain ⟨s₀, hh, hs⟩ := upTo_eq_ok.mp (lowered_eq_some.mp h)
  obtain ⟨t, htop⟩ := topLevel_of_clashes (along_of_lowered h) hg
    (find?_of_lowered h (List.mem_of_getElem? hk) hg.function)
  have hall : topLevelAll c fs m.body s₀ = .error (g.boundTwice.locate st.pos) t := by
    obtain ⟨hlt, hget⟩ := List.getElem?_eq_some_iff.mp hk
    rw [← List.take_append_drop k m.body, List.drop_eq_getElem_cons hlt, hget, topLevelAll_append]
    refine bind_eq_error.mpr (.inr ⟨(), s, hs, bind_eq_error.mpr (.inl ?_)⟩)
    exact located_eq_error.mpr ⟨_, htop, rfl⟩
  have hmodule : Lower.module c m .empty = .error (g.boundTwice.locate st.pos) t := by
    rw [module_eq]
    exact bind_eq_error.mpr (.inr ⟨fs, s₀, hh, bind_eq_error.mpr (.inl hall)⟩)
  rw [compile, compileNoted, hmodule]

/-- The definitions at `j` and `k` are of functions that differ, but have the same text. -/
def Homonyms (m : Module) (c : Catalog) (id : String) (j k : Nat) : Prop :=
  j < k ∧ ∃ st st' f g, m.body[j]? = some st ∧ m.body[k]? = some st' ∧ st.function? c = some f ∧
    st'.function? c = some g ∧ (f.name, f.types) ≠ (g.name, g.types) ∧
    Names.functionId f.name f.types = id ∧ Names.functionId g.name g.types = id

/-- The label of a function has an address before its definition if another function has the
same text. -/
theorem taken_iff_homonyms {st : Stmt} {g : Function} (h : m.lowered c k = some (fs, s))
    (hk : m.body[k]? = some st) (hg : st.function? c = some g) :
    s.Taken (Names.functionId g.name g.types) ↔
    ∃ j, m.Homonyms c (Names.functionId g.name g.types) j k := by
  obtain ⟨hlt, hget⟩ := List.getElem?_eq_some_iff.mp hk
  rw [taken_iff_of_lowered h hlt.le]
  constructor
  · rintro ⟨j, st', f, hj, hst', hf, hid⟩
    refine ⟨j, hj, st', st, f, g, hst', hk, hf, hg, fun hkey => ?_, hid, rfl⟩
    obtain ⟨_, _, _, rfl, hdist⟩ := header_of_lowered h
    rw [Functions.Distinct, List.pairwise_filterMap, List.pairwise_iff_getElem] at hdist
    obtain ⟨hlt', rfl⟩ := List.getElem?_eq_some_iff.mp hst'
    exact hdist j k hlt' hlt hj f hf g (hget ▸ hg) (Prod.mk.inj hkey)
  · rintro ⟨j, hj, st', _, f, _, hst', _, hf, _, _, hid, _⟩
    exact ⟨j, st', f, hj, hst', hf, hid⟩

theorem not_homonyms_of_legible (hm : ∀ f ∈ m.body.filterMap (Stmt.function? c), f.Legible)
    (j : Nat) :
    ¬ m.Homonyms c id j k := by
  rintro ⟨hj, st, st', f, g, hst, hst', hf, hg, hne, hid, hid'⟩
  have hmem {i st f} (hi : m.body[i]? = some st) (hf : st.function? c = some f) :=
    hm f (List.mem_filterMap.mpr ⟨st, List.mem_of_getElem? hi, hf⟩)
  obtain ⟨hname, htypes⟩ := (hmem hst hf).key_eq (hmem hst' hg) (hid.trans hid'.symm)
  have htypes := congrArg (List.map Ty.named) htypes
  rw [Stmt.types_of_function? hf, Stmt.types_of_function? hg] at htypes
  exact hne (Prod.ext hname htypes)

theorem homonyms_of_boundTwice {d : Diagnostic} (hd : m.compile c = .error (.rejected d))
    (hp : d.problem = .declaration id "label is bound twice") :
    ∃ j k, m.Homonyms c id j k ∧ (m.lowered c k).isSome := by
  obtain hf | ⟨k, st, fs, s, g, hk, hs, hg, hf⟩ := fault_of_compile hd
  · rw [Fault.isUnlabelled, hp] at hf
    exact absurd rfl (decide_eq_true_eq.mp hf)
  · cases hf
    rw [Diagnostic.problem_locate] at hp
    obtain rfl : Names.functionId g.name g.types = id := (Problem.declaration.inj hp).1
    obtain ⟨j, hj⟩ := (taken_iff_homonyms hs hk hg.function).mp hg.taken
    exact ⟨j, k, hj, by rw [hs]; rfl⟩

/-- A label is bound twice if and only if the script has homonyms, and is lowered up to the second
of them. This does not happen if all functions are legible. -/
theorem compile_boundTwice_iff (c : Catalog) (m : Module) :
    (∀ id, (∃ d, m.compile c = .error (.rejected d) ∧
      d.problem = .declaration id "label is bound twice") ↔
      ∃ j k, m.Homonyms c id j k ∧ (m.lowered c k).isSome) ∧
    ((∀ f ∈ m.body.filterMap (Stmt.function? c), f.Legible) →
      ∀ d, m.compile c = .error (.rejected d) →
        ∀ id, d.problem ≠ .declaration id "label is bound twice") := by
  refine ⟨fun id => ⟨fun ⟨d, hd, hp⟩ => homonyms_of_boundTwice hd hp, ?_⟩, fun hm d hd id hp => ?_⟩
  · rintro ⟨j, k, hjk, hs⟩
    obtain ⟨⟨fs, s⟩, hs⟩ := Option.isSome_iff_exists.mp hs
    have hparts := hjk
    obtain ⟨_, _, st, _, g, _, hk, _, hg, _, _, rfl⟩ := hparts
    have hclash : st.Clashes c s g := ⟨hg, (taken_iff_homonyms hs hk hg).mpr ⟨j, hjk⟩⟩
    exact ⟨_, compile_of_clashes hk hs hclash, by rw [Diagnostic.problem_locate]; rfl⟩
  · obtain ⟨j, k, hjk, _⟩ := homonyms_of_boundTwice hd hp
    exact not_homonyms_of_legible hm j hjk

/-- A function with a parameter, and one without that has the text of the first one as its name. -/
def homonyms : Module :=
  ⟨[Build.define "f" [("x", "SystemInt32")] none [.pass .unknown],
    Build.define "f__SystemInt32" [] none [.pass .unknown]]⟩

theorem homonyms_boundTwice :
    (homonyms.body.filterMap (Stmt.function? scalars)).map (fun f => (f.name, f.types)) =
      [("f", [.int32]), ("f__SystemInt32", [])] ∧
    homonyms.compile scalars = .error (.rejected (.boundTwice "f__SystemInt32")) := by
  decide +kernel

theorem homonyms_found :
    (∃ j k, homonyms.Homonyms scalars "f__SystemInt32" j k ∧ (homonyms.lowered scalars k).isSome) ∧
    (∀ f ∈ overloads.body.filterMap (Stmt.function? scalars), f.Legible) ∧
    ∀ d, overloads.compile scalars = .error (.rejected d) →
      ∀ id, d.problem ≠ .declaration id "label is bound twice" := by
  have hc : homonyms.compile scalars = .error (.rejected (.boundTwice "f__SystemInt32")) := by
    decide +kernel
  have hlegible : ∀ f ∈ overloads.body.filterMap (Stmt.function? scalars), f.Legible := by
    decide +kernel
  exact ⟨((compile_boundTwice_iff scalars homonyms).1 _).mp ⟨_, hc, rfl⟩, hlegible,
    (compile_boundTwice_iff scalars overloads).2 hlegible⟩

end Module
end StackScript
