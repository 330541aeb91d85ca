import BehaviorTrees.Proofs.Tree.LoadFaults
import BehaviorTrees.Proofs.Tree.Loading

/-!
# Loading into a tree

`Tree.loadInto` works on the tree it loads into.  It keeps the nodes that are not yet claimed, and
then the trees that are finished, under their keys; a key that is not there any more is a fault of
its own.  It writes to the tree when all this is done.  What it leaves is what `Tree.load` says, and
when it fails, the tree as it was: a tree that is finished is always there when it is to be put in
its place.
-/

namespace BehaviorTrees

variable {σ : Type}

namespace Tree

/-! ## Claiming by key -/

/-- Puts the keys that a node links on the stack, one by one. -/
def pushLinks (nodes : KeyMap NodeRecord) (parent : NodeId) :
    List NodeId → List NodeId → Except TreeFault (List NodeId)
  | [], stack => .ok stack
  | child :: links, stack =>
      if nodes.contains child then pushLinks nodes parent links (child :: stack)
      else .error (.missingNode parent child)

/-- The keys a node links; a key without a record links none. -/
def linksAt (nodes : KeyMap NodeRecord) (key : NodeId) (category : Category) :
    Except TreeFault (List NodeId) :=
  match nodes.find? key with
  | some r => r.links key category
  | none => .ok []

/-- Claims what is on the stack, and takes it from the nodes that are left. -/
def claimByKey (nodes : KeyMap NodeRecord) (left : KeyMap (Node σ)) (stack : List NodeId)
    (claimed : List (Claim σ)) : Except TreeFault (List (Claim σ)) :=
  match stack with
  | [] => .ok claimed
  | key :: rest =>
      match _hleft : left.find? key with
      | none => .error (.sharedNode key)
      | some n => do
          let links ← linksAt nodes key n.category
          let stack ← pushLinks nodes key links rest
          claimByKey nodes (left.erase key) stack (⟨key, links, n⟩ :: claimed)
termination_by left.size
decreasing_by exact KeyMap.size_erase_lt _hleft

theorem pushLinks_eq (nodes : KeyMap NodeRecord) (parent : NodeId) (links stack : List NodeId) :
    pushLinks nodes parent links stack =
      match missing? nodes links with
      | some child => .error (.missingNode parent child)
      | none => .ok (links.reverse ++ stack) := by
  induction links generalizing stack with
  | nil => rfl
  | cons child links ih =>
      rw [pushLinks, ih]
      simp only [missing?, List.find?_cons]
      cases nodes.contains child with
      | false => rfl
      | true => simp

variable {names : Catalog σ} {d : TreeRecord} {made : List (String × Node σ)} {root : NodeId}
  {stack keys : List NodeId} {claimed cs : List (Claim σ)} {count : Nat}

section

variable {nodes : KeyMap NodeRecord} {left : KeyMap (Node σ)} {key : NodeId} {rest : List NodeId}

theorem claimByKey_eq_shared (h : left.find? key = none) :
    claimByKey nodes left (key :: rest) claimed = .error (.sharedNode key) := by
  rw [claimByKey]
  split <;> simp_all

theorem claimByKey_cons {n : Node σ} (h : left.find? key = some n) :
    claimByKey nodes left (key :: rest) claimed =
      linksAt nodes key n.category >>= fun links =>
        pushLinks nodes key links rest >>= fun stack =>
          claimByKey nodes (left.erase key) stack (⟨key, links, n⟩ :: claimed) := by
  rw [claimByKey]
  split <;> simp_all

end

/-- While links are followed, the nodes left are those made but for the ones claimed. -/
theorem Pursuing.claimByKey_eq (hmade : makeAll names d.nodes.entries = .ok made)
    (h : Pursuing names d root count stack claimed) {left : KeyMap (Node σ)}
    (hleft : ∀ key, left.find? key =
      if key ∈ claimed.map Claim.key then none else made.lookup key) :
    claimByKey d.nodes left stack claimed = claimAll d.nodes made count stack claimed := by
  induction count generalizing stack claimed left with
  | zero =>
      cases stack with
      | nil => simp [claimByKey, claimAll]
      | cons key rest =>
          -- all entries are claimed by now, so this one comes up again
          exact claimByKey_eq_shared (by rw [hleft, if_pos h.head_mem])
  | succ count ih =>
      cases stack with
      | nil => simp [claimByKey, claimAll]
      | cons key rest =>
          obtain ⟨hreach, hkey⟩ := h.reaches key List.mem_cons_self
          obtain ⟨r, hr⟩ := KeyMap.contains_iff.1 hkey
          obtain ⟨blank, hblank⟩ :=
            exists_makeAll_eq_ok_iff.1 ⟨made, hmade⟩ (key, r) (KeyMap.find?_eq_some_iff.1 hr)
          have hlookup : made.lookup key = some (dress key r blank) :=
            (lookup_of_makeAll hmade).2 ⟨r, hr, make_eq_ok_iff.2 ⟨blank, hblank, rfl⟩⟩
          rw [claimAll]
          by_cases hmem : key ∈ claimed.map Claim.key
          · rw [if_pos (any_key_iff.2 hmem)]
            exact claimByKey_eq_shared (by rw [hleft, if_pos hmem])
          · rw [if_neg (mt any_key_iff.1 hmem),
              claimByKey_cons ((hleft key).trans ((if_neg hmem).trans hlookup))]
            simp only [linksAt, claim, hr, hlookup]
            cases hlinks : r.links key (dress key r blank).category with
            | error fault => rfl
            | ok links =>
                simp only [bind, Except.bind, pushLinks_eq]
                cases hmissing : missing? d.nodes links with
                | some child => rfl
                | none =>
                    have hclaim : claim d.nodes made key = .ok ⟨key, links, dress key r blank⟩ := by
                      simp [claim, hr, hlookup, hlinks, hmissing, bind, Except.bind]
                    refine ih (h.step hmem ((claim_eq_ok_iff hmade).1 hclaim)) fun k => ?_
                    rw [KeyMap.find?_erase, hleft, List.map_cons]
                    by_cases hk : k = key <;> simp [hk]

/-! ## Putting together by key -/

/-- Takes a finished tree. -/
def takeTree (built : KeyMap (Node σ)) (key : NodeId) :
    Except TreeFault (Node σ × KeyMap (Node σ)) :=
  match built.find? key with
  | none => .error (.sharedNode key)
  | some n => .ok (n, built.erase key)

def takeTrees (built : KeyMap (Node σ)) :
    List NodeId → Except TreeFault (List (Node σ) × KeyMap (Node σ))
  | [] => .ok ([], built)
  | key :: keys => do
      let (n, built) ← takeTree built key
      let (ns, built) ← takeTrees built keys
      return (n :: ns, built)

def attachByKey (built : KeyMap (Node σ)) (c : Claim σ) :
    Except TreeFault (KeyMap (Node σ)) :=
  match c.node.category, c.links with
  | .composite, key :: keys => do
      let (kids, built) ← takeTrees built (key :: keys)
      let n := c.node.adopt kids
      if n.children.length = (key :: keys).length then return built.insert c.key n
      else throw (.unexpectedLink c.key .composite .children)
  | .decorator, key :: _ => do
      let (kid, built) ← takeTree built key
      let n := c.node.adopt [kid]
      if n.child.isSome then return built.insert c.key n
      else throw (.unexpectedLink c.key .decorator .child)
  | _, _ => return built.insert c.key c.node

def attachAllByKey (claimed : List (Claim σ)) (built : KeyMap (Node σ)) :
    Except TreeFault (KeyMap (Node σ)) :=
  claimed.foldlM attachByKey built

section

variable {built : KeyMap (Node σ)} {links : List NodeId} {kids : List (Node σ)} {c : Claim σ}

theorem keys_zip (h : kids.length = links.length) : (links.zip kids).map Prod.fst = links :=
  List.map_fst_zip h.ge

/-- Finished trees that were put there under distinct new keys are taken from there again. -/
theorem takeTrees_insertAll (hlength : kids.length = links.length) (hnodup : links.Nodup)
    (hfresh : ∀ key ∈ links, built.find? key = none) :
    takeTrees (built.insertAll (links.zip kids)) links = .ok (kids, built) := by
  induction links generalizing kids with
  | nil =>
      obtain rfl := List.eq_nil_of_length_eq_zero hlength
      rfl
  | cons key keys ih =>
      obtain ⟨n, kids, rfl⟩ := List.exists_cons_of_length_eq_add_one hlength
      obtain ⟨hkey, hkeys⟩ := List.nodup_cons.1 hnodup
      obtain ⟨hnone, hrest⟩ := List.forall_mem_cons.1 hfresh
      have hlength' : kids.length = keys.length := by simpa using hlength
      have hzip : (((key :: keys).zip (n :: kids)).map Prod.fst).Nodup := by
        rwa [keys_zip hlength]
      have hfind : (built.insertAll ((key :: keys).zip (n :: kids))).find? key = some n := by
        rw [KeyMap.find?_insertAll hzip]
        simp
      have herase : (built.insertAll ((key :: keys).zip (n :: kids))).erase key =
          built.insertAll (keys.zip kids) := by
        refine KeyMap.ext_find? fun k => ?_
        have hkeys' : ((keys.zip kids).map Prod.fst).Nodup := by rwa [keys_zip hlength']
        rw [KeyMap.find?_erase, KeyMap.find?_insertAll hzip, KeyMap.find?_insertAll hkeys',
          List.zip_cons_cons, Entries.lookup_cons_eq]
        by_cases hk : k = key
        · subst hk
          have : (keys.zip kids).lookup k = none := by
            rwa [Entries.lookup_eq_none_iff_notMem, keys_zip hlength']
          simp [this, hnone]
        · simp [hk]
      rw [takeTrees, takeTree, hfind, herase]
      simp [ih hlength' hkeys hrest, bind, Except.bind, pure, Except.pure]

theorem takeTree_of_takeTrees {built' : KeyMap (Node σ)} {key : NodeId} {kid : Node σ}
    (h : takeTrees built [key] = .ok ([kid], built')) : takeTree built key = .ok (kid, built') := by
  simp only [takeTrees, bind, Except.bind] at h
  cases htake : takeTree built key with
  | error fault => simp [htake] at h
  | ok taken =>
      obtain ⟨n, left⟩ := taken
      simp_all [pure, Except.pure]

/-- With the finished trees of the keys it links, a claim is attached as it is with these trees
alone. -/
theorem Claims.attachByKey_eq {key : NodeId} (hc : Claims names d key c)
    (hlength : kids.length = c.links.length) (hnodup : c.links.Nodup)
    (hfresh : ∀ k ∈ c.links, built.find? k = none) :
    attachByKey (built.insertAll (c.links.zip kids)) c =
      attach c kids >>= fun n => .ok (built.insert c.key n) := by
  obtain ⟨-, r, blank, -, -, hnode, hhold, hlinks, -⟩ := hc
  have htake := takeTrees_insertAll hlength hnodup hfresh
  rw [← category_dress key r, ← hnode] at hhold
  obtain ⟨key', links, n⟩ := c
  change links = r.linked at hlinks
  change kids.length = links.length at hlength
  rcases n with ⟨l, k, cs⟩ | ⟨l, k, c⟩ | ⟨l, k⟩
  · cases links with
    | nil =>
        obtain rfl := List.eq_nil_of_length_eq_zero hlength
        rfl
    | cons link links =>
        obtain ⟨kid, kids, rfl⟩ := List.exists_cons_of_length_eq_add_one hlength
        simp only [attachByKey, attach, Node.category, htake, bind, Except.bind, ← hlength]
        split <;> rfl
  · have hchildren : r.children.getD [] = [] := hhold
    rw [NodeRecord.linked, hchildren, List.nil_append] at hlinks
    obtain rfl := hlinks
    cases hchild : r.child with
    | none =>
        simp only [hchild, Option.toList_none, List.length_nil] at hlength
        obtain rfl := List.eq_nil_of_length_eq_zero hlength
        rfl
    | some link =>
        simp only [hchild, Option.toList_some] at hlength htake ⊢
        obtain ⟨kid, rfl⟩ := List.length_eq_one_iff.1 hlength
        simp only [attachByKey, attach, Node.category, takeTree_of_takeTrees htake, bind,
          Except.bind]
        split <;> rfl
  · rw [linked_eq_nil_of_leaf hhold] at hlinks
    obtain rfl := hlinks
    obtain rfl := List.eq_nil_of_length_eq_zero hlength
    have hleaf := k.isLeaf_category
    cases hcategory : k.category <;>
      simp_all [attachByKey, attach, Node.category, Category.isLeaf, bind, Except.bind] <;> rfl

/-- Putting together by key does what putting together on a stack does: it comes to the same fault,
or to the same trees, under the keys they were claimed by. -/
theorem Outline.attachAllByKey_eq (h : Outline names d keys cs) (hnodup : (cs.map Claim.key).Nodup)
    (hfresh : ∀ key ∈ cs.map Claim.key, built.find? key = none) (done : List (Node σ))
    (rest : List (Claim σ)) :
    (∃ fault, attachAll (cs ++ rest) done = .error fault ∧
        attachAllByKey (cs ++ rest) built = .error fault) ∨
      ∃ trees, trees.length = keys.length ∧
        attachAll (cs ++ rest) done = attachAll rest (trees.reverse ++ done) ∧
        attachAllByKey (cs ++ rest) built =
          attachAllByKey rest (built.insertAll (keys.zip trees)) := by
  induction h generalizing built done rest with
  | nil => exact .inr ⟨[], rfl, rfl, rfl⟩
  | @cons key keys c below later hc hbelow _ ihbelow ihlater =>
      rw [List.map_append, List.map_cons] at hnodup hfresh
      obtain ⟨hnodupBelow, hnodupLater, -⟩ := List.nodup_append.1 hnodup
      have hself : c.key ∉ later.map Claim.key := (List.nodup_cons.1 hnodupLater).1
      have hlinksNodup : c.links.Nodup :=
        (hbelow.keys_perm.nodup_iff.1 hnodupBelow).of_append_left
      have hlinksFresh : ∀ k ∈ c.links, built.find? k = none := fun k hk =>
        hfresh k (List.mem_append_left _ (hbelow.keys_perm.symm.subset (List.mem_append_left _ hk)))
      rw [List.append_assoc, List.cons_append]
      -- the trees below the claim are put under the keys it links, where it takes them from
      obtain hfault | ⟨kids, hlength, hstack, hkeyed⟩ := ihbelow hnodupBelow
        (fun k hk => hfresh k (List.mem_append_left _ hk)) done (c :: (later ++ rest))
      · exact .inl hfault
      · rw [hstack, hkeyed, attachAll_cons hlength, attachAllByKey, List.foldlM_cons,
          hc.attachByKey_eq hlength hlinksNodup hlinksFresh]
        cases hattach : attach c kids with
        | error fault => exact .inl ⟨fault, rfl, rfl⟩
        | ok n =>
            have hlaterFresh : ∀ k ∈ later.map Claim.key, (built.insert c.key n).find? k = none := by
              intro k hk
              have hne : k ≠ c.key := fun heq => hself (heq ▸ hk)
              rw [KeyMap.find?_insert_of_ne _ hne]
              exact hfresh k (List.mem_append_right _ (List.mem_cons_of_mem _ hk))
            obtain hfault | ⟨trees, htrees, hstack, hkeyed⟩ :=
              ihlater (List.nodup_cons.1 hnodupLater).2 hlaterFresh (n :: done) rest
            · exact .inl hfault
            · refine .inr ⟨n :: trees, by simp [htrees], ?_, ?_⟩
              · simp [bind, Except.bind, hstack]
              · rw [← hc.1, List.zip_cons_cons, KeyMap.insertAll_cons]
                exact hkeyed

end

def assembleByKey (r : TreeRecord) (made : KeyMap (Node σ)) :
    Except TreeFault (Option (Node σ)) :=
  match r.root with
  | none => .ok none
  | some root =>
      if r.nodes.contains root then do
        let claimed ← claimByKey r.nodes made [root] []
        let built ← attachAllByKey claimed ∅
        match built.find? root with
        | none => .error (.missingRoot root)
        | some n => .ok (some n)
      else .error (.missingRoot root)

/-! ## Loading into a tree -/

/-- What works on a tree, and may fail on the way. -/
abbrev Loader (σ : Type) := ExceptT TreeFault (StateM (Tree σ))

/-- What is worked out without the tree. -/
def Loader.check {α : Type} (x : Except TreeFault α) : Loader σ α := ExceptT.mk (pure x)

/-- Writes to the tree what a record says, with the root and the names that loading gave. -/
def overwrite (r : TreeRecord) (root : Option (Node σ)) (callerNames : List String) :
    StateM (Tree σ) Unit := do
  if let some id := r.id then
    modify ({ · with id })
  unless r.title.isEmpty do
    modify ({ · with title := r.title })
  unless r.description.isEmpty do
    modify ({ · with description := r.description })
  unless r.properties.isEmpty do
    modify ({ · with properties := r.properties })
  modify ({ · with root })
  modify ({ · with callerNames })

def loadInto (r : TreeRecord) (names : Catalog σ) : Loader σ Unit := do
  let made ← Loader.check (makeAll names r.nodes.entries)
  let root ← Loader.check (assembleByKey r (.ofList made))
  overwrite r root (namesTaken names r.nodes)

def loadTextInto (text : String) (names : Catalog σ) : Loader σ Unit :=
  match TreeRecord.ofText? text with
  | none => throw .malformed
  | some r => loadInto r names

/-- How a loading ends, and the tree it leaves. -/
def Loader.outcome (x : Loader σ Unit) (t : Tree σ) : Except TreeFault Unit × Tree σ := x.run.run t

theorem keys_of_makeAll {entries : List (String × NodeRecord)}
    (h : makeAll names entries = .ok made) : made.map Prod.fst = entries.map Prod.fst := by
  rw [makeAll_eq_ok_iff] at h
  induction h with
  | nil => rfl
  | cons hm _ ih => rw [List.map_cons, List.map_cons, hm.1, ih]

theorem assembleByKey_eq (hmade : makeAll names d.nodes.entries = .ok made) :
    assembleByKey d (.ofList made) = assemble d made := by
  rw [assembleByKey, assemble]
  cases hroot : d.root with
  | none => rfl
  | some root =>
      by_cases hkey : d.nodes.contains root = true
      · have hleft : ∀ key, (KeyMap.ofList made).find? key =
            if key ∈ ([] : List (Claim σ)).map Claim.key then none else made.lookup key := by
          intro key
          have hnodup : (made.map Prod.fst).Nodup := keys_of_makeAll hmade ▸ d.nodes.nodup_keys
          rw [KeyMap.ofList, KeyMap.find?_insertAll hnodup]
          simp
        simp only [hkey, if_true, (Pursuing.start hkey).claimByKey_eq hmade hleft]
        cases hclaim : claimAll d.nodes made d.nodes.size [root] [] with
        | error fault => rfl
        | ok claimed =>
            obtain ⟨new, rfl, houtline, hnodup⟩ := outline_of_claimAll hmade hclaim .nil
            rw [List.append_nil] at hnodup ⊢
            obtain ⟨fault, hstack, hkeyed⟩ | ⟨trees, htrees, hstack, hkeyed⟩ :=
              houtline.attachAllByKey_eq hnodup (fun _ _ => KeyMap.find?_empty _) [] []
            · rw [List.append_nil] at hstack hkeyed
              simp [hstack, hkeyed, bind, Except.bind]
            · obtain ⟨n, rfl⟩ := List.length_eq_one_iff.1 htrees
              rw [List.append_nil] at hstack hkeyed
              have hbuilt : attachAllByKey new ∅ = .ok (KeyMap.insert ∅ root n) := hkeyed
              have hdone : attachAll new [] = .ok [n] := hstack
              simp [hbuilt, hdone, bind, Except.bind, pure, Except.pure]
      · simp [hkey]

theorem outcome_check {α : Type} (x : Except TreeFault α) (f : α → Loader σ Unit) (t : Tree σ) :
    (Loader.check x >>= f).outcome t =
      match x with
      | .ok a => (f a).outcome t
      | .error fault => (.error fault, t) := by
  cases x <;> rfl

theorem outcome_lift (x : StateM (Tree σ) Unit) (t : Tree σ) :
    (liftM x : Loader σ Unit).outcome t = (.ok (x.run t).1, (x.run t).2) := rfl

theorem run_overwrite (r : TreeRecord) (root : Option (Node σ)) (callerNames : List String)
    (t : Tree σ) :
    (overwrite r root callerNames).run t = ((), { t with
      id := r.id.getD t.id
      title := if r.title.isEmpty then t.title else r.title
      description := if r.description.isEmpty then t.description else r.description
      properties := if r.properties.isEmpty then t.properties else r.properties
      root
      callerNames }) := by
  rw [overwrite]
  cases r.id <;> cases r.title.isEmpty <;> cases r.description.isEmpty <;>
    cases r.properties.isEmpty <;> rfl

/-- Loading into a tree leaves the tree that loading gives, or the tree as it was. -/
theorem outcome_loadInto (t : Tree σ) (d : TreeRecord) (names : Catalog σ) :
    (loadInto d names).outcome t =
      match t.load d names with
      | .ok t' => (.ok (), t')
      | .error fault => (.error fault, t) := by
  rw [loadInto, outcome_check, load]
  cases hmade : makeAll names d.nodes.entries with
  | error fault => rfl
  | ok made =>
      simp only [outcome_check, assembleByKey_eq hmade]
      cases hroot : assemble d made with
      | error fault => simp [bind, Except.bind, hroot]
      | ok root =>
          simp only [outcome_lift, run_overwrite, bind, Except.bind, hroot]
          rfl

theorem eq_of_outcome_loadInto {t t' : Tree σ} {fault : TreeFault}
    (h : (loadInto d names).outcome t = (.error fault, t')) :
    t' = t ∧ t.load d names = .error fault := by
  rw [outcome_loadInto] at h
  cases hload : t.load d names with
  | ok t'' => simp [hload] at h
  | error fault' =>
      simp only [hload, Prod.mk.injEq, Except.error.injEq] at h
      exact ⟨h.2.symm, congrArg _ h.1⟩

/-- A loading that fails, from a record or from a text, leaves the tree as it was; its fault is the
one that loading gives, and what it says of the record is so. -/
theorem failed_load_truthful (t t' : Tree σ) (names : Catalog σ) (fault : TreeFault) :
    (∀ d, (loadInto d names).outcome t = (.error fault, t') →
        t' = t ∧ t.load d names = .error fault ∧ fault.Truthful names d) ∧
      ∀ text, (loadTextInto text names).outcome t = (.error fault, t') →
        t' = t ∧ t.loadText text names = .error fault ∧
          (fault = .malformed ∧ TreeRecord.ofText? text = none ∨
            ∃ d, TreeRecord.ofText? text = some d ∧ fault.Truthful names d) := by
  have hrecord : ∀ d, (loadInto d names).outcome t = (.error fault, t') →
      t' = t ∧ t.load d names = .error fault ∧ fault.Truthful names d := by
    intro d h
    obtain ⟨ht, hload⟩ := eq_of_outcome_loadInto h
    exact ⟨ht, hload, truthful_of_load hload⟩
  refine ⟨hrecord, fun text h => ?_⟩
  rw [loadTextInto] at h
  rw [loadText]
  cases htext : TreeRecord.ofText? text with
  | none =>
      rw [htext] at h
      cases h
      exact ⟨rfl, rfl, .inl ⟨rfl, rfl⟩⟩
  | some d =>
      rw [htext] at h
      obtain ⟨ht, hload, htruthful⟩ := hrecord d h
      exact ⟨ht, hload, .inr ⟨d, rfl, htruthful⟩⟩

theorem failed_load_truthful_sharing :
    (loadInto sharingPair steadyNames).outcome emptyTree =
        (.error (.sharedNode "a"), emptyTree) ∧
      (loadTextInto "[" steadyNames).outcome emptyTree = (.error .malformed, emptyTree) ∧
      TreeFault.Truthful steadyNames sharingPair (.sharedNode "a") ∧
      TreeRecord.ofText? "[" = none := by
  have hshared : (loadInto sharingPair steadyNames).outcome emptyTree =
      (.error (.sharedNode "a"), emptyTree) := by
    rw [outcome_loadInto]
    rfl
  have htext : (loadTextInto "[" steadyNames).outcome emptyTree = (.error .malformed, emptyTree) :=
    rfl
  refine ⟨hshared, htext, ((failed_load_truthful _ _ _ _).1 _ hshared).2.2, ?_⟩
  obtain ⟨-, -, ⟨-, hnone⟩ | ⟨d, -, htruthful⟩⟩ := (failed_load_truthful _ _ _ _).2 _ htext
  · exact hnone
  · exact htruthful.elim

end Tree
end BehaviorTrees
