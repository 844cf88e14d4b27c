import StackScript.Proofs.LabelClosure
import StackScript.Proofs.Lowering.Labels

namespace StackScript.Emitter

/-- All that can be asked of an emitter. -/
inductive Request where
  | nextName (kind : String)
  | freshLabel (kind : String)
  | namedLabel (name : String)
  | bind (label : Nat)
  | addEvent (name : String)
  | eventHead (name : String)
  | halt
  | pop
  | copy
  | push (x : String)
  | pushAll (xs : List String)
  | pushAddr (a : Nat)
  | goto (label : Nat)
  | jumpTo (a : Nat)
  | branchUnless (cond : String) (label : Nat)
  | jumpIndirect (x : String)
  | invoke (symbol : String) (operands : List String)
  | assign (dst src : String)
  | popInto (x : String)
  | popIntoAll (xs : List String)
  | enter (frame : Block.Frame) (returnLabel : Nat)
  | leave (result : Block.Outcome) (env : List String) (returnSlot : String)
  | ret (returnSlot : String) (value : Option String)
  | exit (returnSlot : String) (value : Option String)

namespace Request

def code : Request → List Instr
  | .nextName _ | .freshLabel _ | .namedLabel _ | .bind _ | .addEvent _ => []
  | .eventHead name => [.eventHead name]
  | .halt => Block.halt
  | .pop => [.pop]
  | .copy => [.copy]
  | .push x => [.push x]
  | .pushAll xs => Block.pushAll xs
  | .pushAddr a => [.pushAddr a]
  | .goto label => Block.goto label
  | .jumpTo a => [.jump (.addr a)]
  | .branchUnless cond label => Block.branchUnless cond label
  | .jumpIndirect x => [.jumpIndirect x]
  | .invoke symbol operands => Block.invoke symbol operands
  | .assign dst src => Block.assign dst src
  | .popInto x => Block.popInto x
  | .popIntoAll xs => Block.popIntoAll xs
  | .enter frame _ => Block.enter frame
  | .leave result env returnSlot => Block.leave result env returnSlot
  | .ret returnSlot value => Block.ret returnSlot value
  | .exit returnSlot value => Block.exit returnSlot value

def labels : Request → List Nat
  | .bind label | .goto label | .branchUnless _ label => [label]
  | .enter frame returnLabel => [frame.entry, returnLabel]
  | _ => []

end Request

inductive Reply where
  | done
  | name (text : String)
  | label (id : Nat)
  | refused (d : Diagnostic)

def tryBind (e : Emitter) (label : Nat) : Except Nat (Reply × Emitter) :=
  match e.bind label with
  | .ok e => .ok (.done, e)
  | .error (.rejected d) => .ok (.refused d, e)
  | .error (.dangling label) => .error label

/-- The answer to a request, and the emitter behind it. There is none if a label is asked for that
the table does not have. -/
def perform (e : Emitter) : Request → Except Nat (Reply × Emitter)
  | .nextName kind => .ok (.name (e.nextName kind).1, (e.nextName kind).2)
  | .freshLabel kind => .ok (.label (e.freshLabel kind).1, (e.freshLabel kind).2)
  | .namedLabel name => .ok (.label (e.namedLabel name).1, (e.namedLabel name).2)
  | .bind label => e.tryBind label
  | .addEvent name => .ok (.done, e.addEvent name)
  | .enter frame returnLabel => (e.append (Block.enter frame)).tryBind returnLabel
  | r => .ok (.done, e.append r.code)

abbrev History := List (Request × Reply)

def History.labels (h : History) : List Nat :=
  h.filterMap fun
    | (_, .label id) => some id
    | _ => none

/-- Runs from the empty emitter that use no other labels than those handed out. -/
inductive Run : History → Emitter → Prop
  | start : Run [] .empty
  | step {h e e' r reply} (hr : Run h e) (hl : r.labels ⊆ History.labels h)
      (hp : e.perform r = .ok (reply, e')) :
      Run (h ++ [(r, reply)]) e'

def Binds (e : Emitter) (label a : Nat) : Prop := ∃ name, e.labels[label]? = some ⟨name, some a⟩

def draft (e : Emitter) : Draft := { Draft.empty with emitter := e }

variable {e e' : Emitter} {r : Request} {reply : Reply} {h : History}

theorem binds_iff {l a : Nat} : e.Binds l a ↔ e.draft.Bound l a :=
  (Draft.bound_iff (s := e.draft)).symm

theorem tryBind_cases {l : Nat} (hp : e.tryBind l = .ok (reply, e')) :
    e.bind l = .ok e' ∧ reply = .done ∨ ∃ d, reply = .refused d ∧ e' = e := by
  rw [tryBind] at hp
  split at hp
  case h_1 e₁ hb =>
    cases hp
    exact .inl ⟨hb, rfl⟩
  case h_2 d hb =>
    cases hp
    exact .inr ⟨d, rfl, rfl⟩
  case h_3 => cases hp

theorem eq_of_tryBind_refused {l : Nat} {d : Diagnostic} (hp : e.tryBind l = .ok (.refused d, e')) :
    e' = e := by
  obtain ⟨-, hd⟩ | ⟨_, -, he⟩ := tryBind_cases hp
  · cases hd
  · exact he

theorem exists_tryBind {l : Nat} (hl : l < e.labels.size) :
    ∃ reply e', e.tryBind l = .ok (reply, e') := by
  rw [tryBind, Emitter.bind, Array.getElem?_eq_getElem hl]
  dsimp only
  split_ifs
  · exact ⟨_, _, rfl⟩
  · exact ⟨_, _, rfl⟩

theorem moves_of_tryBind {l : Nat} (hp : e.tryBind l = .ok (reply, e')) :
    Draft.Moves e.draft e'.draft := by
  obtain ⟨hb, -⟩ | ⟨d, -, rfl⟩ := tryBind_cases hp
  · exact .single (.bind hb)
  · exact .refl

theorem code_of_tryBind {l : Nat} (hp : e.tryBind l = .ok (reply, e')) : e'.code = e.code := by
  obtain ⟨hb, -⟩ | ⟨d, -, rfl⟩ := tryBind_cases hp
  · obtain ⟨n, -, rfl⟩ := bind_eq_ok hb
    rfl
  · rfl

/-- Every call is a few moves of a draft. -/
theorem moves_of_perform (hp : e.perform r = .ok (reply, e')) : Draft.Moves e.draft e'.draft := by
  cases r with
  | nextName kind =>
      cases hp
      exact .single (.count _ kind)
  | freshLabel kind =>
      cases hp
      exact .tail (.single (.count _ kind)) (.label _ _)
  | namedLabel name =>
      cases hp
      exact .single (.named _ name)
  | bind l => exact moves_of_tryBind hp
  | addEvent name =>
      cases hp
      exact .single (.event _ name)
  | enter frame l => exact .head (.emit _ _) (moves_of_tryBind hp)
  | _ =>
      cases hp
      exact .single (.emit _ _)

theorem code_of_perform (hp : e.perform r = .ok (reply, e')) :
    e'.code.toList = e.code.toList ++ r.code := by
  cases r with
  | nextName | freshLabel | addEvent =>
      cases hp
      exact (List.append_nil _).symm
  | namedLabel name =>
      cases hp
      obtain ⟨l, -, he⟩ | ⟨-, he⟩ := e.namedLabel_cases name
      · rw [he]
        exact (List.append_nil _).symm
      · rw [he]
        exact (List.append_nil _).symm
  | bind l =>
      rw [code_of_tryBind hp]
      exact (List.append_nil _).symm
  | enter frame l =>
      rw [code_of_tryBind hp]
      simp [append, Request.code]
  | _ =>
      cases hp
      simp [append, Request.code]

theorem grows_of_perform (hp : e.perform r = .ok (reply, e')) : Draft.Grows e.draft e'.draft :=
  Draft.Moves.grows (moves_of_perform hp)

theorem label_of_perform {l : Nat} (hp : e.perform r = .ok (.label l, e')) :
    (∃ kind, r = .freshLabel kind ∧ l = e.labels.size ∧ e'.labels.size = e.labels.size + 1 ∧
      e'.named = e.named) ∨ ∃ name, r = .namedLabel name ∧ e'.named.lookup name = some l := by
  have hbind {e e' : Emitter} {k : Nat} : e.tryBind k ≠ .ok (.label l, e') := by
    intro hk
    obtain ⟨-, hd⟩ | ⟨d, hd, -⟩ := tryBind_cases hk
    · cases hd
    · cases hd
  cases r with
  | freshLabel kind =>
      cases hp
      exact .inl ⟨kind, rfl, rfl, by simp [Emitter.freshLabel, pushLabel, nextName], rfl⟩
  | namedLabel name =>
      cases hp
      refine .inr ⟨name, rfl, ?_⟩
      obtain ⟨k, hk, he⟩ | ⟨-, he⟩ := e.namedLabel_cases name
      · rw [he]
        exact hk
      · rw [he]
        exact List.lookup_cons_self
  | bind k => exact absurd hp hbind
  | enter frame k => exact absurd hp hbind
  | _ => cases hp

/-- A label made for a name is found under the name; one made without is found under none. -/
structure Recalls (h : History) (e : Emitter) : Prop where
  named : ∀ {name l}, (.namedLabel name, .label l) ∈ h → e.named.lookup name = some l
  made : ∀ {r l}, (r, .label l) ∈ h → l < e.labels.size
  fresh : ∀ {kind l}, (.freshLabel kind, .label l) ∈ h → e.draft.Private l

theorem Run.moves (hr : Run h e) : Draft.Moves .empty e.draft := by
  induction hr with
  | start => exact .refl
  | step _ _ hp ih => exact ih.trans (moves_of_perform hp)

theorem Run.numbered (hr : Run h e) : e.draft.Numbered := hr.moves.numbered Draft.numbered_empty

theorem Run.recalls (hr : Run h e) : Recalls h e := by
  induction hr with
  | start => exact ⟨by simp, by simp, by simp⟩
  | @step h e e' r reply hr hl hp ih =>
      have hg := grows_of_perform hp
      have hnumbered := (Run.step hr hl hp).numbered
      refine ⟨fun {name l} hm => ?_, fun {r' l} hm => ?_, fun {kind l} hm => ?_⟩
      · obtain hm | hm := List.mem_append.mp hm
        · exact hg.named (ih.named hm)
        · cases List.mem_singleton.mp hm
          obtain ⟨_, hr, -⟩ | ⟨_, hr, hlookup⟩ := label_of_perform hp
          · cases hr
          · cases hr
            exact hlookup
      · obtain hm | hm := List.mem_append.mp hm
        · exact (ih.made hm).trans_le hg.labels
        · cases List.mem_singleton.mp hm
          obtain ⟨_, -, rfl, hsize, -⟩ | ⟨name, -, hlookup⟩ := label_of_perform hp
          · omega
          · exact hnumbered name l hlookup
      · obtain hm | hm := List.mem_append.mp hm
        · exact (ih.fresh hm).grows (ih.made hm) hg
        · cases List.mem_singleton.mp hm
          obtain ⟨_, -, rfl, -, hnamed⟩ | ⟨_, hr, -⟩ := label_of_perform hp
          · -- the number is new, and the table by name only has old ones
            intro id hid
            have hid : e.named.lookup id = some e.labels.size := hnamed ▸ hid
            exact lt_irrefl _ (hr.numbered id _ hid)
          · cases hr

theorem Run.lt_size (hr : Run h e) {l : Nat} (hl : l ∈ History.labels h) : l < e.labels.size := by
  obtain ⟨⟨r, reply⟩, hm, hs⟩ := List.mem_filterMap.mp hl
  cases reply with
  | label id =>
      cases hs
      exact hr.recalls.made hm
  | _ => cases hs

theorem Run.exists_perform (hr : Run h e) (hl : r.labels ⊆ History.labels h) :
    ∃ reply e', e.perform r = .ok (reply, e') := by
  cases r with
  | bind l => exact exists_tryBind (hr.lt_size (hl (by simp [Request.labels])))
  | enter frame l =>
      have hlt : l < e.labels.size := hr.lt_size (hl (by simp [Request.labels]))
      exact exists_tryBind (e := e.append (Block.enter frame)) hlt
  | _ => exact ⟨_, _, rfl⟩

theorem Run.split {h' : History} (hr : Run (h ++ h') e') :
    ∃ e, Run h e ∧ Draft.Moves e.draft e'.draft := by
  induction h' using List.reverseRecOn generalizing e' with
  | nil => exact ⟨e', by simpa using hr, .refl⟩
  | append_singleton h' x ih =>
      rw [← List.append_assoc] at hr
      generalize hk : h ++ h' ++ [x] = k at hr
      cases hr with
      | start => simp at hk
      | step hr hl hp =>
          obtain ⟨rfl, -⟩ := List.append_inj' hk rfl
          obtain ⟨e₀, hr₀, hm⟩ := ih hr
          exact ⟨e₀, hr₀, hm.trans (moves_of_perform hp)⟩

theorem Run.unique (hr : Run h e) (hr' : Run h e') : e = e' := by
  induction hr generalizing e' with
  | start =>
      generalize hk : ([] : History) = k at hr'
      cases hr' with
      | start => rfl
      | step => simp at hk
  | @step h e₁ e₂ r reply _ _ hp ih =>
      generalize hk : h ++ [(r, reply)] = k at hr'
      cases hr' with
      | start => simp at hk
      | step hr hl hp' =>
          obtain ⟨rfl, hx⟩ := List.append_inj' hk rfl
          cases hx
          obtain rfl := ih hr
          rw [hp] at hp'
          cases hp'
          rfl

/-- An emitter in any run, at any moment of it. Its counter is the size of its code; labels that
were handed out exist; addresses of labels are boundaries of the code; labels are the same for the
same name only, and never the same as one without a name. Whatever is asked next is answered,
appends its code, and if a label cannot be bound nothing else happens. In all that follows the code
and the addresses stay. -/
theorem run_invariant (hr : Run h e) :
    e.pc = Code.size e.code.toList ∧
    (∀ l ∈ History.labels h, l < e.labels.size) ∧
    (∀ l a, e.Binds l a → Code.Boundary e.code.toList a) ∧
    (∀ n n' l l', (.namedLabel n, .label l) ∈ h → (.namedLabel n', .label l') ∈ h →
      (l = l' ↔ n = n')) ∧
    (∀ kind n l l', (.freshLabel kind, .label l) ∈ h → (.namedLabel n, .label l') ∈ h → l ≠ l') ∧
    (∀ r, r.labels ⊆ History.labels h → ∃ reply e', e.perform r = .ok (reply, e') ∧
      e'.code.toList = e.code.toList ++ r.code ∧
      (∀ l d, r = .bind l → reply = .refused d → e' = e) ∧
      ∀ frame l d, r = .enter frame l → reply = .refused d →
        e' = e.append (Block.enter frame)) ∧
    ∀ h' e', Run (h ++ h') e' →
      e.code.toList <+: e'.code.toList ∧ ∀ l a, e.Binds l a → e'.Binds l a := by
  have hm := hr.moves
  have hrecalls := hr.recalls
  refine ⟨(hm.sized rfl).symm, fun l => hr.lt_size, ?_, ?_, ?_, ?_, ?_⟩
  · intro l a hb
    exact Draft.boundary_of_bound hm (binds_iff.mp hb)
  · intro n n' l l' hn hn'
    have hl := hrecalls.named hn
    have hl' := hrecalls.named hn'
    constructor
    · rintro rfl
      obtain ⟨a, ha⟩ := Draft.Moves.titled hm n l hl
      obtain ⟨b, hb⟩ := Draft.Moves.titled hm n' l hl'
      rw [ha] at hb
      cases hb
      rfl
    · rintro rfl
      rw [hl] at hl'
      exact Option.some.inj hl'
  · rintro kind n l l' hf hn rfl
    exact hrecalls.fresh hf n (hrecalls.named hn)
  · intro r hl
    obtain ⟨reply, e', hp⟩ := hr.exists_perform hl
    refine ⟨reply, e', hp, code_of_perform hp, ?_, ?_⟩
    · rintro l d rfl rfl
      exact eq_of_tryBind_refused hp
    · rintro frame l d rfl rfl
      exact eq_of_tryBind_refused hp
  · intro h' e' hr'
    obtain ⟨e₀, hr₀, hmoves⟩ := hr'.split
    obtain rfl := hr.unique hr₀
    have hg := Draft.Moves.grows hmoves
    exact ⟨hg.code, fun l a hb => binds_iff.mpr (hg.bound (binds_iff.mp hb))⟩

def session : History :=
  [(.freshLabel "ret_call_label", .label 0), (.namedLabel "f", .label 1), (.push "x", .done),
    (.bind 1, .done), (.namedLabel "f", .label 1), (.bind 1, .refused (.boundTwice "f")),
    (.enter ⟨"ret_addr", ["f__n"], "k", ["x"], 1⟩ 0, .done)]

theorem session_invariant : ∃ e, Run session e ∧ e.Binds 1 5 ∧ e.Binds 0 30 ∧
    e.pc = Code.size e.code.toList ∧ Code.Boundary e.code.toList 30 ∧
    ∃ e', e.perform (.goto 1) = .ok (.done, e') ∧ e.code.toList <+: e'.code.toList := by
  have h₁ := Run.start.step (r := .freshLabel "ret_call_label") (List.nil_subset _) rfl
  have h₂ := h₁.step (r := .namedLabel "f") (List.nil_subset _) rfl
  have h₃ := h₂.step (r := .push "x") (List.nil_subset _) rfl
  have h₄ := h₃.step (r := .bind 1) (by decide) rfl
  have h₅ := h₄.step (r := .namedLabel "f") (List.nil_subset _) rfl
  have h₆ := h₅.step (r := .bind 1) (by decide) rfl
  have h₇ : Run session _ :=
    h₆.step (r := .enter ⟨"ret_addr", ["f__n"], "k", ["x"], 1⟩ 0) (by decide) rfl
  obtain ⟨hpc, -, hboundary, -, -, hnext, -⟩ := run_invariant h₇
  refine ⟨_, h₇, ⟨_, rfl⟩, ⟨_, rfl⟩, hpc, hboundary 0 30 ⟨_, rfl⟩, ?_⟩
  obtain ⟨reply, e', hp, hcode, -⟩ := hnext (.goto 1) (by decide)
  cases hp
  exact ⟨_, rfl, ⟨_, hcode.symm⟩⟩

end StackScript.Emitter
