import BehaviorTrees.Json.Printer
import BehaviorTrees.Json.Reader
import BehaviorTrees.Proofs.Json.Document
import Mathlib.Tactic.IntervalCases

/-!
# Reading what was printed

The reader makes of the printed form of a value the document of this value, as long as its numbers
are integers of 64 bits.  Each of its functions stops where the printed part ends, provided that
what comes next could not belong to a number.
-/

namespace BehaviorTrees

open Json

/-! ## Strings -/

namespace Document

theorem hex4?_hexChar : ∀ n < 32, hex4? '0' '0' (hexChar (n / 16)) (hexChar (n % 16)) = some n := by
  decide

theorem Spelled.pushUnit_eq_push {n : Nat} (h : n < 32) (s : Spelled) :
    s.pushUnit n = s.push (Char.ofNat n) := by
  have hhigh : isHighSurrogate n = false := by simp [isHighSurrogate]; omega
  have hlow : isLowSurrogate n = false := by simp [isLowSurrogate]; omega
  simp [pushUnit, hhigh, hlow]

theorem escapeChar_cases (c : Char) :
    (∃ e, escapeChar c = ['\\', e] ∧ e ≠ 'u' ∧ shortEscape? e = some c) ∨
      (escapeChar c = ['\\', 'u', '0', '0', hexChar (c.toNat / 16), hexChar (c.toNat % 16)] ∧
        c.toNat < 32) ∨
      escapeChar c = [c] ∧ c ≠ '"' ∧ c ≠ '\\' ∧ ¬c.toNat < 32 := by
  rw [escapeChar]
  split_ifs with hquote hbackslash hb hf hn hr ht hcontrol
  any_goals
    subst c
    exact .inl ⟨_, rfl, by decide, rfl⟩
  · exact .inr (.inl ⟨rfl, hcontrol⟩)
  · exact .inr (.inr ⟨rfl, hquote, hbackslash, hcontrol⟩)

theorem readString_escapeChar (c : Char) (rest : List Char) (found : Spelled) :
    readString (escapeChar c ++ rest) found = readString rest (found.push c) := by
  obtain ⟨e, hescape, hu, he⟩ | ⟨hescape, hcontrol⟩ | ⟨hescape, hquote, hbackslash, hcontrol⟩ :=
    escapeChar_cases c
  · rw [hescape, List.cons_append, List.cons_append, List.nil_append, readString, he]
    exact fun _ _ _ _ _ heq _ => hu heq
  · have hhex := hex4?_hexChar c.toNat hcontrol
    have hunit := found.pushUnit_eq_push hcontrol
    simp only [hescape, List.cons_append, List.nil_append, readString, hhex, hunit,
      Char.ofNat_toNat]
  · rw [hescape, List.cons_append, List.nil_append, readString.eq_def]
    split <;> simp_all

theorem readString_stringChars (s : String) (rest : List Char) :
    readString (s.toList.flatMap escapeChar ++ '"' :: rest) .start = some (some s, rest) := by
  have hread (cs done : List Char) :
      readString (cs.flatMap escapeChar ++ '"' :: rest) ⟨some done, none⟩ =
        some (some (String.ofList (done.reverse ++ cs)), rest) := by
    induction cs generalizing done with
    | nil => simp [readString, Spelled.text?]
    | cons c cs ih =>
        rw [List.flatMap_cons, List.append_assoc, readString_escapeChar]
        simpa [Spelled.push] using ih (c :: done)
  simpa [Spelled.start] using hread s.toList []

/-! ## Numbers -/

/-- The text goes on with what ends a number. -/
inductive Ends : List Char → Prop where
  | nil : Ends []
  | comma (rest : List Char) : Ends (',' :: rest)
  | newline (rest : List Char) : Ends ('\n' :: rest)

end Document

/-- The decimal digits of a natural number, the highest one first. -/
def Json.naturalDigits (n : Nat) : List Nat :=
  if n < 10 then [n] else naturalDigits (n / 10) ++ [n % 10]

namespace Document

theorem naturalChars_eq (n : Nat) : naturalChars n = (naturalDigits n).map digitChar := by
  induction n using naturalChars.induct with
  | case1 n h => simp [naturalChars, naturalDigits, h]
  | case2 n h ih =>
      rw [naturalChars, naturalDigits, if_neg h, if_neg h, ih, List.map_append, List.map_cons,
        List.map_nil]

theorem naturalDigits_lt (n : Nat) : ∀ d ∈ naturalDigits n, d < 10 := by
  induction n using naturalDigits.induct with
  | case1 n h => simp [naturalDigits, h]
  | case2 n h ih =>
      rw [naturalDigits, if_neg h, List.forall_mem_append]
      exact ⟨ih, by simpa using Nat.mod_lt n (by decide)⟩

theorem exists_naturalDigits_eq_cons (n : Nat) :
    ∃ d ds, naturalDigits n = d :: ds ∧ (d = 0 → n = 0 ∧ ds = []) := by
  induction n using naturalDigits.induct with
  | case1 n h => exact ⟨n, [], by rw [naturalDigits, if_pos h], fun hn => ⟨hn, rfl⟩⟩
  | case2 n h ih =>
      obtain ⟨d, ds, hds, hzero⟩ := ih
      refine ⟨d, ds ++ [n % 10], by rw [naturalDigits, if_neg h, hds, List.cons_append], ?_⟩
      intro hd
      have := hzero hd
      omega

/-- The number that digits add to one read before. -/
def valueFrom (m : Nat) (ds : List Nat) : Nat := ds.foldl (fun m d => m * 10 + d) m

theorem le_valueFrom (m : Nat) (ds : List Nat) : m ≤ valueFrom m ds := by
  induction ds generalizing m with
  | nil => exact le_rfl
  | cons d ds ih =>
      calc m ≤ m * 10 + d := by omega
        _ ≤ valueFrom (m * 10 + d) ds := ih _

theorem valueFrom_naturalDigits (n : Nat) : valueFrom 0 (naturalDigits n) = n := by
  induction n using naturalDigits.induct with
  | case1 n h => simp [naturalDigits, h, valueFrom]
  | case2 n h ih =>
      rw [valueFrom] at ih
      rw [naturalDigits, if_neg h, valueFrom, List.foldl_append, ih]
      exact Nat.div_add_mod' n 10

/-- All digits are taken of what stays a word. -/
theorem takeDigits_eq {m : Nat} {ds : List Nat} (h : valueFrom m ds < Word.count) :
    Number.takeDigits m ds = (valueFrom m ds, ds.length) := by
  induction ds generalizing m with
  | nil => rfl
  | cons d ds ih =>
      have hd : m * 10 + d < Word.count := (le_valueFrom _ ds).trans_lt h
      rw [Number.takeDigits, if_pos hd, ih h]
      rfl

theorem digit_digitChar : ∀ d < 10, (digitChar d).isDigit ∧ digit (digitChar d) = d ∧
    (digitChar d = '0' → d = 0) := by
  decide

theorem readDigits_digitChars {ds : List Nat} (hds : ∀ d ∈ ds, d < 10) {rest : List Char}
    (hrest : Ends rest) : readDigits (ds.map digitChar ++ rest) = (ds, rest) := by
  induction ds with
  | nil => cases hrest <;> rfl
  | cons d ds ih =>
      obtain ⟨hd, hds⟩ := List.forall_mem_cons.1 hds
      obtain ⟨hdigit, hvalue, -⟩ := digit_digitChar d hd
      rw [List.map_cons, List.cons_append, readDigits, if_pos hdigit, ih hds, hvalue]

theorem readWhole_naturalChars (n : Nat) {rest : List Char} (hrest : Ends rest) :
    readWhole (naturalChars n ++ rest) = some (naturalDigits n, rest) := by
  obtain ⟨d, ds, hds, hzero⟩ := exists_naturalDigits_eq_cons n
  have hread := readDigits_digitChars (naturalDigits_lt n) hrest
  have hd : d < 10 := naturalDigits_lt n d (by simp [hds])
  rw [naturalChars_eq]
  rw [hds, List.map_cons, List.cons_append] at hread ⊢
  by_cases h : d = 0
  · obtain ⟨-, rfl⟩ := hzero h
    subst h
    rfl
  · have hhead : digitChar d ≠ '0' := fun hchar => h ((digit_digitChar d hd).2.2 hchar)
    rw [readWhole, readDigits1, hread]
    simpa using fun h => absurd h hhead

theorem readUnsigned_naturalChars (negative : Bool) (n : Nat) {rest : List Char}
    (hrest : Ends rest) :
    readUnsigned negative (naturalChars n ++ rest) =
      some (.number (Number.Numeral.value? ⟨negative, naturalDigits n, none, none⟩), rest) := by
  rw [readUnsigned, readWhole_naturalChars n hrest]
  cases hrest <;> rfl

theorem exists_naturalChars_eq_cons (n : Nat) :
    ∃ d cs, d < 10 ∧ naturalChars n = digitChar d :: cs := by
  obtain ⟨d, ds, hds, -⟩ := exists_naturalDigits_eq_cons n
  exact ⟨d, ds.map digitChar, naturalDigits_lt n d (by simp [hds]),
    by rw [naturalChars_eq, hds, List.map_cons]⟩

theorem readNumber_naturalChars (n : Nat) (rest : List Char) :
    readNumber (naturalChars n ++ rest) = readUnsigned false (naturalChars n ++ rest) := by
  obtain ⟨d, cs, hd, hcs⟩ := exists_naturalChars_eq_cons n
  rw [hcs, List.cons_append]
  interval_cases d <;> rfl

theorem readNumber_intChars {z : Int} (hlow : -(Word.half : Int) ≤ z) (hhigh : z < Word.count)
    {rest : List Char} (hrest : Ends rest) :
    readNumber (intChars z ++ rest) = some (.number (some (.int z)), rest) := by
  have hword : Word.half < Word.count := by decide
  have hvalue {n : Nat} (hn : n < Word.count) :
      Number.takeDigits 0 (naturalDigits n) = (n, (naturalDigits n).length) := by
    rw [← valueFrom_naturalDigits n] at hn
    rw [takeDigits_eq hn, valueFrom_naturalDigits]
  rw [intChars]
  split_ifs with hz
  · have hn : z.natAbs < Word.count := by omega
    rw [List.cons_append, readNumber, readUnsigned_naturalChars true _ hrest,
      Number.Numeral.value?, hvalue hn]
    have hsign : 0 < z.natAbs ∧ z.natAbs ≤ Word.half := by omega
    simp [hsign, abs_of_neg hz]
  · have hn : z.natAbs < Word.count := by omega
    rw [readNumber_naturalChars, readUnsigned_naturalChars false _ hrest, Number.Numeral.value?,
      hvalue hn]
    simp [abs_of_nonneg (not_lt.1 hz)]

end Document

/-! ## Values -/

namespace Json

/-- A number is an integer of 64 bits, signed or not. -/
def InRange : Json → Prop
  | .number (.int z) => -(Word.half : Int) ≤ z ∧ z < Word.count
  | .number (.float _) => False
  | _ => True

instance : DecidablePred InRange
  | .number (.int _) => inferInstanceAs (Decidable (_ ∧ _))
  | .number (.float _) => isFalse id
  | .null | .bool _ | .string _ | .array _ | .object _ => isTrue trivial

end Json

namespace Document

theorem skipBlanks_newline (level : Nat) (cs : List Char) :
    skipBlanks (newline level ++ cs) = skipBlanks cs := by
  have hspaces (n : Nat) : skipBlanks (List.replicate n ' ' ++ cs) = skipBlanks cs := by
    induction n with
    | zero => rfl
    | succ n ih => exact ih
  exact hspaces (2 * level)

theorem ends_newline (level : Nat) (cs : List Char) : Ends (newline level ++ cs) := .newline _

theorem exists_prettyChars_eq_cons {v : Json} (h : v.InRange) (level : Nat) :
    ∃ c cs, prettyChars level v = c :: cs ∧ isBlank c = false ∧ c ≠ ']' := by
  match v, h with
  | .null, _ | .bool true, _ | .bool false, _ | .string _, _ | .array [], _ | .array (_ :: _), _
  | .object [], _ | .object (_ :: _), _ =>
      exact ⟨_, _, rfl, by decide, by decide⟩
  | .number (.int z), _ =>
      obtain ⟨d, cs, hd, hcs⟩ := exists_naturalChars_eq_cons z.natAbs
      rw [prettyChars, numberChars, intChars]
      split_ifs
      · exact ⟨_, _, rfl, by decide, by decide⟩
      · exact ⟨digitChar d, cs, hcs, by interval_cases d <;> decide⟩

theorem skipBlanks_prettyChars {v : Json} (h : v.InRange) (level : Nat) (rest : List Char) :
    skipBlanks (prettyChars level v ++ rest) = prettyChars level v ++ rest := by
  obtain ⟨c, cs, hcs, hc, -⟩ := exists_prettyChars_eq_cons h level
  simp [hcs, skipBlanks, hc]

/-- The printed form of a value is read up to its end. -/
def ReadsBack (v : Json) : Prop :=
  ∀ ⦃level fuel : Nat⦄ ⦃cs rest : List Char⦄, skipBlanks cs = prettyChars level v ++ rest →
    Ends rest → 2 * (prettyChars level v).length ≤ fuel →
      readValue fuel cs = some (v.document, rest)

theorem readValue_intChars {z : Int} {fuel : Nat} {cs rest : List Char}
    (hcs : skipBlanks cs = intChars z ++ rest) :
    readValue (fuel + 1) cs = readNumber (intChars z ++ rest) := by
  rw [readValue, hcs, intChars]
  split_ifs
  · rfl
  · obtain ⟨d, digits, hd, hdigits⟩ := exists_naturalChars_eq_cons z.natAbs
    rw [hdigits, List.cons_append]
    interval_cases d <;> rfl

/-- `found` are the items before, the last one first; `v` and `items` are those that follow. -/
theorem readItems_prettyItems {level fuel : Nat} {v : Json} {items : List Json}
    {found : List Document} {cs rest : List Char}
    (hitems : ∀ x ∈ v :: items, x.InRange ∧ ReadsBack x)
    (hcs : skipBlanks cs = prettyChars (level + 1) v ++ (prettyItems level items ++ rest))
    (hfuel : 2 * (prettyChars (level + 1) v ++ prettyItems level items).length ≤ fuel) :
    readItems fuel cs found = some (.array (found.reverse ++ documents (v :: items)), rest) := by
  induction items generalizing v fuel cs found with
  | nil =>
      obtain ⟨hv, -⟩ := List.forall_mem_cons.1 hitems
      rw [prettyItems, List.append_assoc] at hcs
      simp only [prettyItems, List.length_append, List.length_cons] at hfuel
      obtain ⟨fuel, rfl⟩ : ∃ k, fuel = k + 1 := ⟨fuel - 1, by omega⟩
      have hread : readValue fuel cs = some (v.document, newline level ++ ([']'] ++ rest)) :=
        hv.2 hcs (ends_newline _ _) (by omega)
      rw [readItems, hread]
      simp [skipBlanks_newline, skipBlanks, isBlank, documents]
  | cons w items ih =>
      obtain ⟨hv, hitems⟩ := List.forall_mem_cons.1 hitems
      simp only [prettyItems, List.cons_append, List.append_assoc, List.length_append,
        List.length_cons] at hcs hfuel ih
      obtain ⟨fuel, rfl⟩ : ∃ k, fuel = k + 1 := ⟨fuel - 1, by omega⟩
      have hread : readValue fuel cs = some (v.document, ',' :: (newline (level + 1) ++
          (prettyChars (level + 1) w ++ (prettyItems level items ++ rest)))) :=
        hv.2 hcs (.comma _) (by omega)
      have hnext := (skipBlanks_newline (level + 1) _).trans
        (skipBlanks_prettyChars (hitems w List.mem_cons_self).1 (level + 1)
          (prettyItems level items ++ rest))
      have hrest : readItems fuel (newline (level + 1) ++
          (prettyChars (level + 1) w ++ (prettyItems level items ++ rest))) (v.document :: found) =
            some (.array ((v.document :: found).reverse ++ documents (w :: items)), rest) :=
        ih hitems hnext (by omega)
      rw [readItems, hread]
      simpa [skipBlanks, isBlank, documents] using hrest

theorem readMembers_prettyFields {level fuel : Nat} {e : String × Json}
    {fields : List (String × Json)} {found : List (Option String × Document)}
    {cs rest : List Char} (hfields : ∀ x ∈ e :: fields, x.2.InRange ∧ ReadsBack x.2)
    (hcs : skipBlanks cs = stringChars e.1 ++ ':' :: ' ' :: (prettyChars (level + 1) e.2 ++
      (prettyFields level fields ++ rest)))
    (hfuel : 2 * (prettyChars (level + 1) e.2 ++ prettyFields level fields).length ≤ fuel) :
    readMembers fuel cs found = some (.object (found.reverse ++ members (e :: fields)), rest) := by
  induction fields generalizing e fuel cs found with
  | nil =>
      obtain ⟨he, -⟩ := List.forall_mem_cons.1 hfields
      simp only [prettyFields, stringChars, List.cons_append, List.append_assoc, List.nil_append,
        List.length_append, List.length_cons] at hcs hfuel
      obtain ⟨fuel, rfl⟩ : ∃ k, fuel = k + 1 := ⟨fuel - 1, by omega⟩
      have hread : readValue fuel (' ' :: (prettyChars (level + 1) e.2 ++
          (newline level ++ '\x7d' :: rest))) =
            some (e.2.document, newline level ++ '\x7d' :: rest) :=
        he.2 (skipBlanks_prettyChars he.1 _ _) (ends_newline _ _) (by omega)
      rw [readMembers, hcs]
      simp [readString_stringChars, hread, skipBlanks_newline, skipBlanks, isBlank, members]
  | cons w fields ih =>
      obtain ⟨he, hfields⟩ := List.forall_mem_cons.1 hfields
      simp only [prettyFields, stringChars, List.cons_append, List.append_assoc, List.nil_append,
        List.length_append, List.length_cons] at hcs hfuel ih
      obtain ⟨fuel, rfl⟩ : ∃ k, fuel = k + 1 := ⟨fuel - 1, by omega⟩
      set later := '"' :: (w.1.toList.flatMap escapeChar ++ '"' :: ':' :: ' ' ::
        (prettyChars (level + 1) w.2 ++ (prettyFields level fields ++ rest))) with hlater
      have hread : readValue fuel (' ' :: (prettyChars (level + 1) e.2 ++
          ',' :: (newline (level + 1) ++ later))) =
            some (e.2.document, ',' :: (newline (level + 1) ++ later)) :=
        he.2 (skipBlanks_prettyChars he.1 _ _) (.comma _) (by omega)
      have hnext : skipBlanks (newline (level + 1) ++ later) = later := skipBlanks_newline _ _
      have hrest : readMembers fuel (newline (level + 1) ++ later)
          ((some e.1, e.2.document) :: found) =
            some (.object (((some e.1, e.2.document) :: found).reverse ++ members (w :: fields)),
              rest) :=
        ih hfields hnext (by omega)
      rw [readMembers, hcs]
      simpa [readString_stringChars, hread, skipBlanks, isBlank, members] using hrest

theorem readsBack {v : Json} (h : v.Each InRange) : ReadsBack v := by
  induction h with
  | @intro v hv hinner ih =>
      intro level fuel cs rest hcs hrest hfuel
      obtain ⟨c, tail, htail, -⟩ := exists_prettyChars_eq_cons hv level
      obtain ⟨fuel, rfl⟩ : ∃ k, fuel = k + 1 := ⟨fuel - 1, by simp [htail] at hfuel; omega⟩
      match v with
      | .null | .bool true | .bool false | .array [] | .object [] =>
          rw [readValue, hcs]
          rfl
      | .number (.int z) =>
          rw [readValue_intChars hcs]
          exact readNumber_intChars hv.1 hv.2 hrest
      | .string s =>
          simp only [prettyChars, stringChars, List.cons_append, List.append_assoc,
            List.nil_append] at hcs
          rw [readValue, hcs]
          simp [readString_stringChars, document]
      | .array (w :: items) =>
          have hitems : ∀ x ∈ w :: items, x.InRange ∧ ReadsBack x :=
            fun x hx => ⟨(hinner x hx).self, ih x hx⟩
          have hw := (hitems w List.mem_cons_self).1
          simp only [prettyChars, List.cons_append, List.append_assoc, List.length_cons,
            List.length_append] at hcs hfuel
          have hnext := skipBlanks_prettyChars hw (level + 1) (prettyItems level items ++ rest)
          have hread : readItems fuel _ [] = some (.array ([] ++ documents (w :: items)), rest) :=
            readItems_prettyItems hitems hnext (by rw [List.length_append]; omega)
          obtain ⟨c, tail, htail, -, hbracket⟩ := exists_prettyChars_eq_cons hw (level + 1)
          rw [readValue, hcs]
          simp only [skipBlanks_newline, hnext]
          rw [htail, List.cons_append] at hread ⊢
          split
          · rename_i heq
            exact absurd (List.cons.inj heq).1 hbracket
          · exact hread
      | .object (e :: fields) =>
          have hfields : ∀ x ∈ e :: fields, x.2.InRange ∧ ReadsBack x.2 := by
            intro x hx
            have hx := List.mem_map_of_mem (f := Prod.snd) hx
            exact ⟨(hinner x.2 hx).self, ih x.2 hx⟩
          simp only [prettyChars, List.cons_append, List.append_assoc, List.length_cons,
            List.length_append] at hcs hfuel
          have hread : readMembers fuel (stringChars e.1 ++ ':' :: ' ' ::
              (prettyChars (level + 1) e.2 ++ (prettyFields level fields ++ rest))) [] =
                some (.object ([] ++ members (e :: fields)), rest) :=
            readMembers_prettyFields hfields rfl (by rw [List.length_append]; omega)
          rw [readValue, hcs]
          simp only [skipBlanks_newline]
          exact hread

/-- What was printed is read as the document of the value. -/
theorem ofText?_pretty {v : Json} (h : v.Each InRange) : ofText? v.pretty = some v.document := by
  have hself := skipBlanks_prettyChars h.self 0 []
  rw [List.append_nil] at hself
  have hread : readValue (2 * (prettyChars 0 v).length + 2) (prettyChars 0 v) =
      some (v.document, []) :=
    readsBack h (by rw [hself, List.append_nil]) .nil (by omega)
  rw [ofText?, pretty, String.toList_ofList, ofChars?, hread]
  rfl

end Document

/-- A value whose numbers are integers of 64 bits and whose objects are in key order survives the
way through text, if it is not too deep. -/
theorem Json.ofText?_pretty {v : Json} (hrange : v.Each InRange) (hordered : v.Each Ordered)
    (hdepth : v.depth ≤ Document.roomForText) : Json.ofText? v.pretty = some v := by
  rw [Json.ofText?, Document.ofText?_pretty hrange, Option.bind_some,
    Document.value?_document hordered hdepth]

end BehaviorTrees
