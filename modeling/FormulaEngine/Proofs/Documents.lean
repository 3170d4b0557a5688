import FormulaEngine.Json.Number
import FormulaEngine.Proofs.Numerals

/-!
# Documents that are read back

A JSON document that is written is read as what it was, whatever comes after it, as long as a number
in it cannot go on there.
-/
namespace FormulaEngine

/-- What comes after a document inside of a greater one, or nothing. -/
def EndsToken (rest : List Char) : Prop :=
  ∀ c, rest.head? = some c → c = ',' ∨ c = ']' ∨ c = '\x7d'

theorem endsToken_nil : EndsToken [] := nofun

theorem endsToken_cons {c : Char} (h : c = ',' ∨ c = ']' ∨ c = '\x7d') (rest : List Char) :
    EndsToken (c :: rest) := by
  rintro d ⟨⟩
  exact h

namespace JsonString

theorem isHigh_toNat (c : Char) : isHigh c.toNat = false := by
  have hvalid : c.toNat < 0xD800 ∨ 0xDFFF < c.toNat ∧ c.toNat < 0x110000 := c.valid
  simp only [isHigh, Bool.and_eq_false_imp, decide_eq_true_eq, decide_eq_false_iff_not]
  omega

theorem isLow_toNat (c : Char) : isLow c.toNat = false := by
  have hvalid : c.toNat < 0xD800 ∨ 0xDFFF < c.toNat ∧ c.toNat < 0x110000 := c.valid
  simp only [isLow, Bool.and_eq_false_imp, decide_eq_true_eq, decide_eq_false_iff_not]
  omega

theorem toChars?_ofChars (cs : List Char) : toChars? (ofChars cs) = some cs := by
  induction cs with
  | nil => rfl
  | cons c cs ih =>
    cases cs with
    | nil => simp [ofChars, toChars?, isHigh_toNat, isLow_toNat]
    | cons d cs =>
      simp only [ofChars, List.map_cons] at ih ⊢
      simp [toChars?, isHigh_toNat, isLow_toNat, ih]

theorem toText?_ofChars (cs : List Char) : toText? (ofChars cs) = some (String.ofList cs) := by
  rw [toText?, toChars?_ofChars]
  rfl

def prepend (n : Nat) : Option (JsonString × List Char) → Option (JsonString × List Char) :=
  Option.map fun p => (n :: p.1, p.2)

theorem read?_short {e : Char} {n : Nat} (h : shortEscape? e = some n) (cs : List Char) :
    read? ('\\' :: e :: cs) = prepend n (read? cs) := by
  have hu : e ≠ 'u' := by
    rintro rfl
    have hnone : shortEscape? 'u' = none := by decide
    rw [hnone] at h
    cases h
  simp only [read?, hu, false_implies, implies_true, h]
  cases read? cs <;> rfl

theorem read?_numbered {a b c d : Char} {n : Nat} (h : hexNumber? a b c d = some n)
    (cs : List Char) :
    read? ('\\' :: 'u' :: a :: b :: c :: d :: cs) = prepend n (read? cs) := by
  rw [read?, h]
  cases read? cs <;> rfl

theorem read?_plain {c : Char} (quote : c ≠ '"') (slash : c ≠ '\\') (shown : ¬c.toNat < 0x20)
    (cs : List Char) : read? (c :: cs) = prepend c.toNat (read? cs) := by
  simp only [read?, slash, shown, false_implies, implies_true, or_self, if_false]
  rfl

theorem hexDigits_eq : ∀ n < 0x20,
    hexDigits n = ['0', '0', Nat.digitChar (n / 16), Nat.digitChar (n % 16)] := by decide

theorem hexNumber?_digitChar : ∀ n < 0x20,
    hexNumber? '0' '0' (Nat.digitChar (n / 16)) (Nat.digitChar (n % 16)) = some n := by decide

theorem read?_writeUnit_append (c : Char) (cs : List Char) :
    read? (writeUnit c.toNat ++ cs) = prepend c.toNat (read? cs) := by
  unfold writeUnit
  split_ifs with hquote hslash hb ht hn hf hr hcontrol
  · rw [hquote]; exact read?_short rfl cs
  · rw [hslash]; exact read?_short rfl cs
  · rw [hb]; exact read?_short rfl cs
  · rw [ht]; exact read?_short rfl cs
  · rw [hn]; exact read?_short rfl cs
  · rw [hf]; exact read?_short rfl cs
  · rw [hr]; exact read?_short rfl cs
  · have hsmall : c.toNat < 0x20 := by simpa [isHigh_toNat, isLow_toNat] using hcontrol
    rw [byNumber, hexDigits_eq c.toNat hsmall]
    exact read?_numbered (hexNumber?_digitChar c.toNat hsmall) cs
  · have hshown : ¬c.toNat < 0x20 := fun h => hcontrol (by simp [h])
    have hne : c ≠ '"' ∧ c ≠ '\\' := by
      constructor
      · rintro rfl
        exact hquote rfl
      · rintro rfl
        exact hslash rfl
    rw [Char.ofNat_toNat]
    exact read?_plain hne.1 hne.2 hshown cs

theorem read?_write (cs rest : List Char) :
    read? ((ofChars cs).flatMap writeUnit ++ '"' :: rest) = some (ofChars cs, rest) := by
  induction cs with
  | nil => rfl
  | cons c cs ih =>
    have hcons : ofChars (c :: cs) = c.toNat :: ofChars cs := rfl
    rw [hcons, List.flatMap_cons, List.append_assoc, read?_writeUnit_append, ih]
    rfl

end JsonString

namespace JsonNumber

theorem not_isDigit_of_endsToken {rest : List Char} (h : EndsToken rest) {c : Char}
    (hc : rest.head? = some c) : c.isDigit = false ∧ c ≠ '.' ∧ c ≠ 'e' ∧ c ≠ 'E' := by
  rcases h c hc with rfl | rfl | rfl <;> decide

theorem readDigits?_append {digits rest : List Char} (nonempty : digits ≠ [])
    (all : ∀ c ∈ digits, c.isDigit = true) (ends : EndsToken rest) :
    readDigits? (digits ++ rest) = some (digits, rest) := by
  have hrest : rest.takeWhile Char.isDigit = [] ∧ rest.dropWhile Char.isDigit = rest := by
    cases rest with
    | nil => exact ⟨rfl, rfl⟩
    | cons c rest =>
      have hc : c.isDigit = false := (not_isDigit_of_endsToken ends rfl).1
      simp [hc]
  have htake : (digits ++ rest).takeWhile Char.isDigit = digits := by
    rw [List.takeWhile_append_of_pos all, hrest.1, List.append_nil]
  have hdrop : (digits ++ rest).dropWhile Char.isDigit = rest := by
    rw [List.dropWhile_append_of_pos all, hrest.2]
  have hempty : digits.isEmpty = false := List.isEmpty_eq_false_iff.2 nonempty
  simp only [readDigits?, htake, hdrop, hempty, Bool.false_eq_true, if_false]

theorem readPlaces?_of_endsToken {rest : List Char} (ends : EndsToken rest) :
    readPlaces? rest = some (none, rest) := by
  cases rest with
  | nil => rfl
  | cons c rest =>
    have hpoint : c ≠ '.' := (not_isDigit_of_endsToken ends rfl).2.1
    unfold readPlaces?
    split
    · rename_i hcons
      exact absurd (List.cons.inj hcons).1 hpoint
    · rfl

theorem readExponent?_of_endsToken {rest : List Char} (ends : EndsToken rest) :
    readExponent? rest = some (none, rest) := by
  cases rest with
  | nil => rfl
  | cons c rest =>
    have hmark : ¬(c = 'e' ∨ c = 'E') := by
      have h := (not_isDigit_of_endsToken ends rfl).2.2
      simp [h]
    simp only [readExponent?, if_neg hmark]

theorem readMagnitude?_numeral (negative : Bool) (n : Nat) {rest : List Char}
    (ends : EndsToken rest) :
    readMagnitude? negative (Integer.numeral n ++ rest) =
      some (⟨negative, Integer.numeral n, none, none⟩, rest) := by
  have hzero : ¬((Integer.numeral n).head? = some '0' ∧ Integer.numeral n ≠ ['0']) := by
    rintro ⟨hhead, hne⟩
    rw [Integer.eq_zero_of_head?_numeral hhead] at hne
    exact hne rfl
  have hdigits := readDigits?_append (Integer.numeral_ne_nil n)
    (fun _ hc => Integer.isDigit_of_mem_numeral hc) ends
  simp only [readMagnitude?, hdigits, readPlaces?_of_endsToken ends,
    readExponent?_of_endsToken ends, Option.bind_eq_bind, Option.bind_some, if_neg hzero,
    Option.pure_def]

/-- A number as it is written, which begins like one and is read as `n`. -/
structure IsWritten (n : JsonNumber) (literal : List Char) : Prop where
  begins : ∃ c cs, literal = c :: cs ∧ (c = '-' ∨ c.isDigit = true)
  reads : ∀ rest, EndsToken rest → read? (literal ++ rest) = some (n, rest)

theorem isWritten_integer (n : Int64) :
    IsWritten ⟨decide (n.toInt < 0), Integer.numeral n.toInt.natAbs, none, none⟩
      (Integer.text n).toList := by
  obtain ⟨c, cs, hnumeral, hdigit⟩ := Integer.exists_numeral_eq_cons n.toInt.natAbs
  rw [Integer.toList_text]
  by_cases hneg : n.toInt < 0
  · rw [if_pos hneg, decide_eq_true hneg]
    exact ⟨⟨'-', _, rfl, .inl rfl⟩, fun rest ends => readMagnitude?_numeral true _ ends⟩
  · rw [if_neg hneg, decide_eq_false hneg, List.nil_append]
    refine ⟨⟨c, cs, hnumeral, .inr hdigit⟩, fun rest ends => ?_⟩
    rw [← readMagnitude?_numeral false _ ends]
    have hminus : c ≠ '-' := by
      rintro rfl
      exact absurd hdigit (by decide)
    unfold read?
    split
    · rename_i hcons
      rw [hnumeral] at hcons
      exact absurd (List.cons.inj hcons).1 hminus
    · rfl

theorem integer?_numeral (n : Int64) :
    integer? ⟨decide (n.toInt < 0), Integer.numeral n.toInt.natAbs, none, none⟩ = some n := by
  have hparts : ((none : Option (List Char)).isSome ||
      (none : Option (Bool × List Char)).isSome) = false := rfl
  simp only [integer?, hparts, Bool.false_eq_true, if_false, Integer.ofDigits_numeral]
  by_cases hneg : n.toInt < 0
  · have hzero : ¬((n.toInt.natAbs : Int) = 0) := by omega
    have hvalue : -(n.toInt.natAbs : Int) = n.toInt := by omega
    rw [decide_eq_true hneg, if_pos rfl, if_neg hzero, hvalue, Integer.ofInt?_toInt]
  · have hvalue : (n.toInt.natAbs : Int) = n.toInt := by omega
    rw [decide_eq_false hneg, if_neg Bool.false_ne_true, hvalue, Integer.ofInt?_toInt]

end JsonNumber

namespace JsonTree

/-- A document made of texts and of numbers that can be read. -/
inductive Readable : JsonTree → Prop where
  | null : Readable .null
  | boolean (b : Bool) : Readable (.boolean b)
  | number {literal : List Char} {n : JsonNumber} (written : n.IsWritten literal) :
    Readable (.number literal)
  | string (cs : List Char) : Readable (.string (.ofChars cs))
  | array {items : List JsonTree} (each : ∀ t ∈ items, Readable t) : Readable (.array items)
  | object {fields : List (JsonString × JsonTree)}
    (keys : ∀ f ∈ fields, ∃ cs, f.1 = .ofChars cs) (each : ∀ f ∈ fields, Readable f.2) :
    Readable (.object fields)

theorem skipBlanks_cons {c : Char} (h : isJsonBlank c = false) (cs : List Char) :
    skipBlanks (c :: cs) = c :: cs := by
  simp [skipBlanks, h]

theorem notMem_of_isDigit {c : Char} (h : c = '-' ∨ c.isDigit = true) :
    c ∉ [' ', '\n', '\t', '\r', ']', '"', '[', '\x7b', 'n', 't', 'f'] := by
  intro hmem
  rcases h with rfl | h
  · simp at hmem
  · have hno : ∀ d ∈ [' ', '\n', '\t', '\r', ']', '"', '[', '\x7b', 'n', 't', 'f'],
        d.isDigit = false := by simp
    rw [hno c hmem] at h
    cases h

theorem isJsonBlank_of_isDigit {c : Char} (h : c = '-' ∨ c.isDigit = true) :
    isJsonBlank c = false := by
  have hne := notMem_of_isDigit h
  simp only [List.mem_cons, not_or] at hne
  simp [isJsonBlank, hne]

/-- A document begins with a character that no reader skips or takes for the end of a list. -/
theorem Readable.exists_write_eq_cons {t : JsonTree} (h : t.Readable) :
    ∃ c cs, t.write = c :: cs ∧ isJsonBlank c = false ∧ c ≠ ']' := by
  cases h with
  | null => exact ⟨'n', _, rfl, by decide⟩
  | boolean b => cases b <;> exact ⟨_, _, rfl, by decide⟩
  | number written =>
    obtain ⟨c, cs, rfl, hc⟩ := written.begins
    refine ⟨c, cs, rfl, isJsonBlank_of_isDigit hc, ?_⟩
    rintro rfl
    exact notMem_of_isDigit hc (by decide)
  | string cs => exact ⟨'"', _, rfl, by decide⟩
  | array each => exact ⟨'[', _, rfl, by decide⟩
  | object keys each => exact ⟨'\x7b', _, rfl, by decide⟩

theorem exists_writeItems_eq_cons {t : JsonTree} (h : t.Readable) (items : List JsonTree) :
    ∃ c cs, writeItems (t :: items) = c :: cs ∧ isJsonBlank c = false ∧ c ≠ ']' := by
  obtain ⟨c, cs, hwrite, hc⟩ := h.exists_write_eq_cons
  cases items with
  | nil => exact ⟨c, cs, hwrite, hc⟩
  | cons u items => exact ⟨c, _, by rw [writeItems, hwrite, List.cons_append], hc⟩

theorem exists_writeFields_eq_cons (key : JsonString) (t : JsonTree)
    (fields : List (JsonString × JsonTree)) :
    ∃ cs, writeFields ((key, t) :: fields) = '"' :: cs := by
  cases fields with
  | nil => exact ⟨_, rfl⟩
  | cons f fields => exact ⟨_, rfl⟩

theorem readTree?_number {c : Char} (h : c = '-' ∨ c.isDigit = true) (fuel : Nat)
    (cs : List Char) :
    readTree? (fuel + 1) (c :: cs) = (JsonNumber.read? (c :: cs)).map fun p =>
      (number ((c :: cs).take ((c :: cs).length - p.2.length)), p.2) := by
  have hne := notMem_of_isDigit h
  simp only [List.mem_cons, not_or] at hne
  rw [readTree?, skipBlanks_cons (isJsonBlank_of_isDigit h)]
  split <;> simp_all

theorem readTree?_string (fuel : Nat) (cs rest : List Char) :
    readTree? (fuel + 1) ((JsonTree.string (.ofChars cs)).write ++ rest) =
      some (.string (.ofChars cs), rest) := by
  have hwrite : (JsonTree.string (.ofChars cs)).write ++ rest =
      '"' :: ((JsonString.ofChars cs).flatMap JsonString.writeUnit ++ '"' :: rest) := by
    simp [write, JsonString.write]
  rw [hwrite, readTree?, skipBlanks_cons rfl]
  simp only [JsonString.read?_write, Option.map_some]

theorem readTree?_written {literal : List Char} {n : JsonNumber} (written : n.IsWritten literal)
    (fuel : Nat) {rest : List Char} (ends : EndsToken rest) :
    readTree? (fuel + 1) (literal ++ rest) = some (.number literal, rest) := by
  obtain ⟨c, cs, rfl, hc⟩ := written.begins
  have hread := written.reads rest ends
  rw [List.cons_append] at hread ⊢
  have hlength : (c :: (cs ++ rest)).length - rest.length = (c :: cs).length := by
    simp only [List.length_cons, List.length_append]
    omega
  have htake : (c :: (cs ++ rest)).take (c :: cs).length = c :: cs := List.take_left' rfl
  rw [readTree?_number hc, hread, Option.map_some, hlength, htake]

theorem readTree?_null (fuel : Nat) (rest : List Char) :
    readTree? (fuel + 1) (JsonTree.null.write ++ rest) = some (.null, rest) := rfl

theorem readTree?_boolean (b : Bool) (fuel : Nat) (rest : List Char) :
    readTree? (fuel + 1) ((JsonTree.boolean b).write ++ rest) = some (.boolean b, rest) := by
  cases b <;> rfl

theorem readTree?_array {c : Char} (shown : isJsonBlank c = false) (more : c ≠ ']') (fuel : Nat)
    (cs : List Char) :
    readTree? (fuel + 1) ('[' :: c :: cs) =
      (readItems? fuel (c :: cs)).map fun p => (.array p.1, p.2) := by
  rw [readTree?, skipBlanks_cons (c := '[') rfl]
  simp only [skipBlanks_cons shown]
  split
  · rename_i hcons
    exact absurd (List.cons.inj hcons).1 more
  · rfl

theorem readTree?_object (fuel : Nat) (cs : List Char) :
    readTree? (fuel + 1) ('\x7b' :: '"' :: cs) =
      (readFields? fuel ('"' :: cs)).map fun p => (.object p.1, p.2) := rfl

section Lists

variable {fuel : Nat} {cs rest : List Char} {t : JsonTree}

theorem readItems?_last (h : readTree? fuel cs = some (t, ']' :: rest)) :
    readItems? (fuel + 1) cs = some ([t], rest) := by
  rw [readItems?, h]
  rfl

theorem readItems?_more (h : readTree? fuel cs = some (t, ',' :: rest)) :
    readItems? (fuel + 1) cs = (readItems? fuel rest).map fun p => (t :: p.1, p.2) := by
  rw [readItems?, h]
  rfl

theorem readFields?_key (key : List Char) :
    readFields? (fuel + 1) ((JsonString.ofChars key).write ++ ':' :: cs) =
      match readTree? fuel cs with
      | none => none
      | some (t, rest) =>
        match skipBlanks rest with
        | ',' :: rest =>
          (readFields? fuel rest).map fun p => ((.ofChars key, t) :: p.1, p.2)
        | '\x7d' :: rest => some ([(.ofChars key, t)], rest)
        | _ => none := by
  have hwrite : (JsonString.ofChars key).write ++ ':' :: cs =
      '"' :: ((JsonString.ofChars key).flatMap JsonString.writeUnit ++ '"' :: ':' :: cs) := by
    simp [JsonString.write]
  rw [hwrite, readFields?, skipBlanks_cons (c := '"') rfl]
  simp only [JsonString.read?_write]
  rfl

theorem readFields?_last (key : List Char) (h : readTree? fuel cs = some (t, '\x7d' :: rest)) :
    readFields? (fuel + 1) ((JsonString.ofChars key).write ++ ':' :: cs) =
      some ([(.ofChars key, t)], rest) := by
  rw [readFields?_key, h]
  rfl

theorem readFields?_more (key : List Char) (h : readTree? fuel cs = some (t, ',' :: rest)) :
    readFields? (fuel + 1) ((JsonString.ofChars key).write ++ ':' :: cs) =
      (readFields? fuel rest).map fun p => ((.ofChars key, t) :: p.1, p.2) := by
  rw [readFields?_key, h]
  rfl

end Lists

mutual

/-- A document is read off the text in front of what comes after it; its length bounds the fuel. -/
theorem readTree?_write {t : JsonTree} (readable : t.Readable) (fuel : Nat)
    (enough : 2 * t.write.length + 1 ≤ fuel) {rest : List Char} (ends : EndsToken rest) :
    readTree? fuel (t.write ++ rest) = some (t, rest) := by
  match fuel with
  | 0 => omega
  | fuel + 1 =>
    cases readable with
    | null => exact readTree?_null fuel rest
    | boolean b => exact readTree?_boolean b fuel rest
    | number written => exact readTree?_written written fuel ends
    | string cs => exact readTree?_string fuel cs rest
    | @array items each =>
      cases items with
      | nil => rfl
      | cons t items =>
        have hitems := readItems?_write each fuel (by simp [write] at enough; omega) rest
        obtain ⟨c, cs, hwrite, hblank, hclose⟩ := exists_writeItems_eq_cons (each t (by simp)) items
        have hread := readTree?_array hblank hclose fuel (cs ++ ']' :: rest)
        rw [hwrite, List.cons_append] at hitems
        rw [hitems] at hread
        simpa [write, hwrite] using hread
    | @object fields keys each =>
      cases fields with
      | nil => rfl
      | cons f fields =>
        obtain ⟨key, t⟩ := f
        have hfields := readFields?_write keys each fuel (by simp [write] at enough; omega) rest
        obtain ⟨cs, hwrite⟩ := exists_writeFields_eq_cons key t fields
        have hread := readTree?_object fuel (cs ++ '\x7d' :: rest)
        rw [hwrite, List.cons_append] at hfields
        rw [hfields] at hread
        simpa [write, hwrite] using hread

theorem readItems?_write {t : JsonTree} {items : List JsonTree}
    (each : ∀ u ∈ t :: items, u.Readable) (fuel : Nat)
    (enough : 2 * (writeItems (t :: items)).length + 2 ≤ fuel) (rest : List Char) :
    readItems? fuel (writeItems (t :: items) ++ ']' :: rest) = some (t :: items, rest) := by
  match fuel with
  | 0 => omega
  | fuel + 1 =>
    cases items with
    | nil =>
      exact readItems?_last (readTree?_write (each t (by simp)) fuel
        (by simp [writeItems] at enough; omega) (endsToken_cons (by simp) rest))
    | cons u items =>
      simp only [writeItems, List.length_append, List.length_cons] at enough
      have hfirst := readTree?_write (each t (by simp)) fuel (by omega)
        (endsToken_cons (c := ',') (by simp) (writeItems (u :: items) ++ ']' :: rest))
      have hrest : readItems? fuel (writeItems (u :: items) ++ ']' :: rest) =
          some (u :: items, rest) :=
        readItems?_write (fun v hv => each v (by simp_all)) fuel (by omega) rest
      have hread := readItems?_more hfirst
      rw [hrest] at hread
      simpa [writeItems] using hread

theorem readFields?_write {key : JsonString} {t : JsonTree} {fields : List (JsonString × JsonTree)}
    (keys : ∀ f ∈ (key, t) :: fields, ∃ cs, f.1 = .ofChars cs)
    (each : ∀ f ∈ (key, t) :: fields, Readable f.2) (fuel : Nat)
    (enough : 2 * (writeFields ((key, t) :: fields)).length + 2 ≤ fuel) (rest : List Char) :
    readFields? fuel (writeFields ((key, t) :: fields) ++ '\x7d' :: rest) =
      some ((key, t) :: fields, rest) := by
  obtain ⟨cs, rfl⟩ : ∃ cs, key = .ofChars cs := keys (key, t) (by simp)
  have ht : t.Readable := each (.ofChars cs, t) (by simp)
  match fuel with
  | 0 => omega
  | fuel + 1 =>
    cases fields with
    | nil =>
      simp only [writeFields, List.length_append, List.length_cons] at enough
      have hlast := readFields?_last cs (readTree?_write ht fuel
        (by omega) (endsToken_cons (c := '\x7d') (by simp) rest))
      simpa [writeFields] using hlast
    | cons f fields =>
      obtain ⟨key', u⟩ := f
      simp only [writeFields, List.length_append, List.length_cons] at enough
      have hfirst := readTree?_write ht fuel (by omega)
        (endsToken_cons (c := ',') (by simp) (writeFields ((key', u) :: fields) ++ '\x7d' :: rest))
      have hrest : readFields? fuel (writeFields ((key', u) :: fields) ++ '\x7d' :: rest) =
          some ((key', u) :: fields, rest) :=
        readFields?_write (fun g hg => keys g (by simp_all)) (fun g hg => each g (by simp_all))
          fuel (by omega) rest
      have hread := readFields?_more cs hfirst
      rw [hrest] at hread
      simpa [writeFields] using hread

end

/-- A readable document is read from what is written for it. -/
theorem ofText?_write {t : JsonTree} (readable : t.Readable) : ofText? t.write = some t := by
  have hread := readTree?_write readable (2 * t.write.length + 2) (by omega) endsToken_nil
  rw [List.append_nil] at hread
  rw [ofText?, hread]
  rfl

end JsonTree

end FormulaEngine
