import BehaviorTrees.Proofs.Tree.RoundTrip

/-!
# Nodes that a number configures

A limiter, a time limit, a pause and the repeating decorators write the number that configures them
into their own properties, and their factories read it there again.  Bounds of repeating decorators
are written as they are and read as signed numbers of 64 bits, so a bound that is not below
`Word.half` is refused by the factory that reads it; all else is read as it was written.
-/

namespace BehaviorTrees

variable {σ : Type}

/-- The names of the types that a number configures. -/
def Catalog.configuredNames : List String :=
  ["Limiter", "MaxTime", "Wait", "Repeater", "RepeatUntilSuccess", "RepeatUntilFailure"]

/-- A repeating decorator with another bound. -/
def DecoratorKind.withBound (b : Bound) : DecoratorKind σ → DecoratorKind σ
  | repeater _ => .repeater b
  | repeatUntilSuccess _ => .repeatUntilSuccess b
  | repeatUntilFailure _ => .repeatUntilFailure b
  | k => k

def DecoratorKind.isRepeating : DecoratorKind σ → Bool
  | repeater _ | repeatUntilSuccess _ | repeatUntilFailure _ => true
  | _ => false

namespace Node

/-- Bounds a repeating decorator, and writes the bound down as it is. -/
def withMaxLoop (m : Nat) : Node σ → Node σ
  | decorator l k c => decorator (l.setProperty "maxLoop" (.ofNat m)) (k.withBound (some m)) c
  | n => n

/-- The bound of a repeating decorator. -/
def maxLoop? : Node σ → Bound
  | decorator _ (.repeater b) _
  | decorator _ (.repeatUntilSuccess b) _
  | decorator _ (.repeatUntilFailure b) _ => b
  | _ => none

/-- The nodes that a number configures, as they come from their constructors. -/
inductive Configured : Node σ → Prop
  | limiter {m : Nat} {k : DecoratorKind σ} (hk : DecoratorKind.limiterOf m = .ok k) (c : Node σ) :
      Configured (ofDecorator k (some c))
  | maxTime {ms : Nat} {k : DecoratorKind σ} (hk : DecoratorKind.maxTimeOf ms = .ok k)
      (c : Node σ) : Configured (ofDecorator k (some c))
  | wait (ms : Nat) : Configured (ofLeaf (.wait ms))
  | repeater (c : Node σ) : Configured (ofDecorator (.repeater none) (some c))
  | repeatUntilSuccess (c : Node σ) : Configured (ofDecorator (.repeatUntilSuccess none) (some c))
  | repeatUntilFailure (c : Node σ) : Configured (ofDecorator (.repeatUntilFailure none) (some c))
  | withMaxLoop {l : Label} {k : DecoratorKind σ} {c : Option (Node σ)} (m : Nat)
      (h : Configured (decorator l k c)) (hk : k.isRepeating = true) :
      Configured ((decorator l k c).withMaxLoop m)
  | fromProperties {name : String} {factory : Factory σ} {p : Properties} {n : Node σ}
      (hname : name ∈ Catalog.configuredNames) (hfactory : Catalog.builtin? name = some factory)
      (h : factory p = .ok n) : Configured n

end Node

/-- The kind is configured by a number that its constructors accept. -/
def DecoratorKind.Numbered : DecoratorKind σ → Prop
  | limiter m | maxTime m => m ≠ 0
  | repeater _ | repeatUntilSuccess _ | repeatUntilFailure _ => True
  | inverter | custom _ => False

namespace Node

variable {n : Node σ} {k : DecoratorKind σ}

/-- The label of the node is that of any new node of its kind, however the node was made. -/
inductive AsNew : Node σ → Prop
  | ofKind (k : DecoratorKind σ) (hk : k.Numbered) (c : Option (Node σ)) :
      AsNew (ofDecorator k c)
  | pause (ms : Nat) : AsNew (ofLeaf (.wait ms))

theorem setProperty_label (hk : k.isRepeating = true) (m : Nat) :
    k.label.setProperty "maxLoop" (.ofNat m) = (k.withBound (some m)).label := by
  cases k with
  | repeater b | repeatUntilSuccess b | repeatUntilFailure b =>
      refine congrArg (fun p => Label.mk _ _ _ p _) (KeyMap.ext_find? fun key => ?_)
      simp only [DecoratorKind.label, Label.setProperty, KeyMap.find?_insert]
      split <;> rfl
  | _ => cases hk

theorem AsNew.withMaxLoop {l : Label} {c : Option (Node σ)} (h : AsNew (decorator l k c))
    (hk : k.isRepeating = true) (m : Nat) : AsNew ((decorator l k c).withMaxLoop m) := by
  cases h with
  | ofKind k _ c =>
      rw [Node.withMaxLoop, setProperty_label hk m]
      refine .ofKind (k.withBound (some m)) ?_ c
      cases k with
      | repeater b | repeatUntilSuccess b | repeatUntilFailure b => trivial
      | _ => cases hk

theorem asNew_of_builtin {name : String} {factory : Factory σ} {p : Properties}
    (hname : name ∈ Catalog.configuredNames) (hfactory : Catalog.builtin? name = some factory)
    (h : factory p = .ok n) : n.AsNew := by
  simp only [Catalog.configuredNames, List.mem_cons, List.not_mem_nil, or_false] at hname
  rcases hname with rfl | rfl | rfl | rfl | rfl | rfl <;> cases hfactory <;>
    obtain ⟨k, hk, rfl⟩ := Catalog.map_eq_ok_iff.1 h
  · obtain ⟨m, -, hm, rfl⟩ := Catalog.limiterFrom_eq_ok_iff.1 hk
    exact .ofKind (.limiter m) hm none
  · obtain ⟨ms, -, hms, rfl⟩ := Catalog.maxTimeFrom_eq_ok_iff.1 hk
    exact .ofKind (.maxTime ms) hms none
  · obtain ⟨ms, -, rfl⟩ := Catalog.waitFrom_eq_ok_iff.1 hk
    exact .pause ms
  · obtain ⟨b, -, rfl⟩ := Catalog.repeaterFrom_eq_ok_iff.1 hk
    exact .ofKind (.repeater b) trivial none
  · obtain ⟨b, -, rfl⟩ := Catalog.repeatUntilSuccessFrom_eq_ok_iff.1 hk
    exact .ofKind (.repeatUntilSuccess b) trivial none
  · obtain ⟨b, -, rfl⟩ := Catalog.repeatUntilFailureFrom_eq_ok_iff.1 hk
    exact .ofKind (.repeatUntilFailure b) trivial none

theorem Configured.asNew (h : n.Configured) : n.AsNew := by
  induction h with
  | @limiter m k hk c =>
      simp only [DecoratorKind.limiterOf] at hk
      split at hk
      · cases hk
      · rename_i hm
        cases hk
        exact .ofKind (.limiter m) hm (some c)
  | @maxTime ms k hk c =>
      simp only [DecoratorKind.maxTimeOf] at hk
      split at hk
      · cases hk
      · rename_i hms
        cases hk
        exact .ofKind (.maxTime ms) hms (some c)
  | wait ms => exact .pause ms
  | repeater c => exact .ofKind (.repeater none) trivial (some c)
  | repeatUntilSuccess c => exact .ofKind (.repeatUntilSuccess none) trivial (some c)
  | repeatUntilFailure c => exact .ofKind (.repeatUntilFailure none) trivial (some c)
  | withMaxLoop m _ hk ih => exact ih.withMaxLoop hk m
  | fromProperties hname hfactory h => exact asNew_of_builtin hname hfactory h

/-! ## Reading the number again -/

theorem find?_setProperty_self (title key : String) (v : Json) :
    (Label.setProperty { title } key v).properties.find? key = some v := by
  simp [Label.setProperty]

theorem natural_setProperty (title key name : String) (m fallback : Nat) :
    Properties.natural (Label.setProperty { title } key (.ofNat m)).properties name key fallback =
      .ok m := by
  rw [Properties.natural, find?_setProperty_self]
  rfl

theorem ofInt_toInt (b : Bound) : Bound.ofInt b.toInt = b := by
  cases b <;> rfl

/-- A bound is read as it was written if it is a signed number of 64 bits. -/
theorem boundFrom_setProperty (title name : String) (b : Bound) :
    DecoratorKind.boundFrom name
        (Label.setProperty { title } "maxLoop" (.ofInt b.toInt)).properties =
      if ∀ m ∈ b, m < Word.half then .ok b else .error (.invalidProperties name) := by
  have hrange : (-(Word.half : Int) ≤ b.toInt ∧ b.toInt < Word.half) ↔ ∀ m ∈ b, m < Word.half := by
    cases b with
    | none => simp [Bound.toInt, Word.half]
    | some m =>
        simp only [Bound.toInt, Word.half, Option.mem_def, Option.some.injEq, forall_eq']
        omega
  rw [DecoratorKind.boundFrom, Properties.int, find?_setProperty_self]
  simp only [Json.int?_ofInt, hrange]
  split
  · exact congrArg Except.ok (ofInt_toInt b)
  · rfl

theorem repeatingFrom_setProperty (kindOf : Bound → DecoratorKind σ) (title name : String)
    (b : Bound) :
    (do return kindOf (← DecoratorKind.boundFrom name
      (Label.setProperty { title } "maxLoop" (.ofInt b.toInt)).properties)) =
      if ∀ m ∈ b, m < Word.half then .ok (kindOf b)
      else (.error (.invalidProperties name) : Except NodeFault (DecoratorKind σ)) := by
  rw [boundFrom_setProperty]
  split <;> rfl

/-- The factory of the type makes the node again, but for what it holds, of the properties of the
node. -/
structure Rebuilt (n : Node σ) (factory : Factory σ) (blank : Node σ) : Prop where
  known : Catalog.builtin? n.name = some factory
  kind : blank.SameKind n
  label : blank.label = n.label
  made : factory n.label.properties =
    if ∀ m ∈ n.maxLoop?, m < Word.half then .ok blank else .error (.invalidProperties n.name)

theorem rebuilt_ofKind {kindFrom : Properties → Except NodeFault (DecoratorKind σ)}
    {c : Option (Node σ)} (hname : Catalog.builtin? k.name = some fun p => ofDecorator <$> kindFrom p)
    (hk : kindFrom k.label.properties =
      if ∀ m ∈ (ofDecorator k c).maxLoop?, m < Word.half then .ok k
      else .error (.invalidProperties k.name)) :
    ∃ factory blank, Rebuilt (ofDecorator k c) factory blank := by
  refine ⟨_, ofDecorator k, hname, .decorator .., rfl, ?_⟩
  change ofDecorator <$> kindFrom k.label.properties = _
  rw [hk]
  split <;> rfl

theorem AsNew.exists_rebuilt (h : n.AsNew) : ∃ factory blank, Rebuilt n factory blank := by
  cases h with
  | pause ms =>
      refine ⟨_, ofLeaf (.wait ms), rfl, .leaf .., rfl, ?_⟩
      have hms : Properties.natural (ofLeaf (.wait ms) : Node σ).label.properties "Wait"
          "milliseconds" 0 = .ok ms := natural_setProperty ..
      have hmade := Catalog.waitFrom_eq_ok_iff.2 ⟨ms, hms, (rfl : LeafKind.wait (σ := σ) ms = _)⟩
      rw [hmade]
      rfl
  | ofKind k hk c =>
      cases k with
      | limiter m =>
          refine rebuilt_ofKind rfl (Catalog.limiterFrom_eq_ok_iff.2 ⟨m, ?_, hk, rfl⟩)
          exact natural_setProperty ..
      | maxTime ms =>
          refine rebuilt_ofKind rfl (Catalog.maxTimeFrom_eq_ok_iff.2 ⟨ms, ?_, hk, rfl⟩)
          exact natural_setProperty ..
      | repeater b =>
          exact rebuilt_ofKind rfl (repeatingFrom_setProperty .repeater _ "Repeater" b)
      | repeatUntilSuccess b =>
          exact rebuilt_ofKind rfl
            (repeatingFrom_setProperty .repeatUntilSuccess _ "RepeatUntilSuccess" b)
      | repeatUntilFailure b =>
          exact rebuilt_ofKind rfl
            (repeatingFrom_setProperty .repeatUntilFailure _ "RepeatUntilFailure" b)
      | _ => exact hk.elim

/-! ## Loading what was dumped -/

/-- Laid over the label of the node itself, the words of a node change nothing. -/
theorem laidOver_self (n : Node σ) : n.record.LaidOver n.id n.label n.label := by
  constructor
  case id => simp [id]
  case title => simp
  case description => simp
  case properties => simp
  case parameters => simp

theorem Rebuilt.make_eq {factory : Factory σ} {blank : Node σ} (h : Rebuilt n factory blank)
    {names : Catalog σ} (hnames : names.contains n.name = false) :
    Tree.make names n.id n.record =
      if ∀ m ∈ n.maxLoop?, m < Word.half then .ok (Tree.dress n.id n.record blank)
      else .error (.node (.invalidProperties n.name)) := by
  have hresolve : names.resolve? n.record.name = some factory := by
    rw [Catalog.resolve?_eq_some_iff, Catalog.Chooses, record_name, Catalog.builtin_find?]
    exact .inr ⟨hnames, h.known⟩
  rw [Tree.make, hresolve]
  by_cases hsmall : ∀ m ∈ n.maxLoop?, m < Word.half
  · simp only [record_properties, h.made, if_pos hsmall]
  · simp only [record_properties, h.made, if_neg hsmall]

/-- A node that a number configures is made again of its own properties, by the factory of its type
and as part of a dump, exactly if it is not a repeating decorator whose bound takes all 64 bits.
Such a decorator is refused. -/
theorem configured_rebuilds_iff {n : Node σ} (h : n.Configured) {names : Catalog σ}
    (hnames : names.contains n.name = false) :
    ∃ factory, Catalog.builtin? n.name = some factory ∧
      ((∃ m, factory n.label.properties = .ok m ∧ m.SameKind n ∧
          m.label.properties = n.label.properties) ↔ ∀ b ∈ n.maxLoop?, b < Word.half) ∧
      ((∃ m, Tree.make names n.id n.record = .ok m ∧ m.SameKind n ∧ m.label = n.label) ↔
        ∀ b ∈ n.maxLoop?, b < Word.half) ∧
      ∀ b ∈ n.maxLoop?, Word.half ≤ b →
        factory n.label.properties = .error (.invalidProperties n.name) ∧
          Tree.make names n.id n.record = .error (.node (.invalidProperties n.name)) := by
  obtain ⟨factory, blank, hblank⟩ := h.asNew.exists_rebuilt
  have hdress : (Tree.dress n.id n.record blank).label = n.label :=
    (hblank.label ▸ Tree.laidOver_dress n.id n.record blank).eq n.laidOver_self
  have hkind : (Tree.dress n.id n.record blank).SameKind n :=
    (sameKind_mapLabel _ blank).symm.trans hblank.kind
  refine ⟨factory, hblank.known, ?_, ?_, fun b hb hlarge => ?_⟩
  · rw [hblank.made]
    split
    · rename_i hsmall
      exact iff_of_true ⟨blank, rfl, hblank.kind, congrArg _ hblank.label⟩ hsmall
    · rename_i hlarge
      exact iff_of_false (by simp) hlarge
  · rw [hblank.make_eq hnames]
    split
    · rename_i hsmall
      exact iff_of_true ⟨_, rfl, hkind, hdress⟩ hsmall
    · rename_i hlarge
      exact iff_of_false (by simp) hlarge
  · have hnot : ¬∀ m ∈ n.maxLoop?, m < Word.half := fun hsmall => by
      have := hsmall b hb
      omega
    exact ⟨hblank.made.trans (if_neg hnot), (hblank.make_eq hnames).trans (if_neg hnot)⟩

/-! ## A repeater with a large bound -/

/-- A repeater that was made without a bound and then given one. -/
def boundedRepeater (m : Nat) : Node Unit :=
  (ofDecorator (.repeater none) (some ((ofLeaf .succeeder).withId "s"))).withMaxLoop m

theorem boundedRepeater_configured (m : Nat) : (boundedRepeater m).Configured :=
  .withMaxLoop m (.repeater _) rfl

theorem configured_rebuilds_iff_largest :
    (boundedRepeater (Word.half - 1)).Configured ∧
      (∃ n : Node Unit, Tree.make ∅ "" (boundedRepeater (Word.half - 1)).record = .ok n ∧
        n.maxLoop? = some (Word.half - 1)) ∧
      Tree.make (∅ : Catalog Unit) "" (boundedRepeater (Word.count - 1)).record =
        .error (.node (.invalidProperties "Repeater")) := by
  have hsmall := boundedRepeater_configured (Word.half - 1)
  have hlarge := boundedRepeater_configured (Word.count - 1)
  have hnames (m : Nat) : (∅ : Catalog Unit).contains (boundedRepeater m).name = false := rfl
  obtain ⟨-, -, -, hiff, -⟩ := configured_rebuilds_iff hsmall (hnames _)
  obtain ⟨_, -, -, -, hrefused⟩ := configured_rebuilds_iff hlarge (hnames _)
  have hbelow : ∀ b ∈ (boundedRepeater (Word.half - 1)).maxLoop?, b < Word.half := by
    rintro b hb
    obtain rfl : Word.half - 1 = b := Option.some.inj hb
    decide
  obtain ⟨n, hmake, hkind, -⟩ := hiff.2 hbelow
  refine ⟨hsmall, ⟨n, hmake, ?_⟩, (hrefused _ rfl (by decide)).2⟩
  cases hkind
  rfl

/-- A bound that only its 64th bit makes large is written by the node and refused by its factory,
and so is the dump of a tree with such a node. -/
theorem repeater_not_rebuilt :
    (boundedRepeater Word.half).Configured ∧ Word.half < Word.count ∧
      DecoratorKind.repeaterFrom (boundedRepeater Word.half).label.properties =
        (.error (.invalidProperties "Repeater") : Except NodeFault (DecoratorKind Unit)) ∧
      Tree.ofRecord "u" Tree.emptyTree.clock
        { Tree.emptyTree with root := some (boundedRepeater Word.half) }.dump ∅ =
        .error (.node (.invalidProperties "Repeater")) :=
  ⟨boundedRepeater_configured Word.half, by decide, rfl, rfl⟩

end Node
end BehaviorTrees
