import FormulaEngine.Proofs.Documents
import FormulaEngine.Value.Json

/-!
# Values through JSON

A value without decimals is read back from its JSON text as it was, unless it is nested too deep for
the reader.
-/
namespace FormulaEngine

namespace JsonTree

mutual

/-- The number of brackets around the innermost part. -/
def depth : JsonTree → Nat
  | array items => 1 + depthOf items
  | object fields => 1 + depthOfFields fields
  | _ => 0

def depthOf : List JsonTree → Nat
  | [] => 0
  | t :: items => max t.depth (depthOf items)

def depthOfFields : List (JsonString × JsonTree) → Nat
  | [] => 0
  | (_, t) :: fields => max t.depth (depthOfFields fields)

end

theorem text?_ofText (s : String) : (ofText s).text? = some s := by
  rw [ofText, text?, JsonString.toText?_ofChars, String.ofList_toList]

theorem integer?_ofInteger (n : Int64) : (ofInteger n).integer? = some n := by
  have hread := (JsonNumber.isWritten_integer n).reads [] endsToken_nil
  rw [List.append_nil] at hread
  rw [ofInteger, integer?, number?, hread, Option.map_some, Option.bind_some,
    JsonNumber.integer?_numeral]

theorem readable_ofText (s : String) : (ofText s).Readable := .string s.toList

theorem readable_ofInteger (n : Int64) : (ofInteger n).Readable :=
  .number (JsonNumber.isWritten_integer n)

theorem readable_record {fields : List (String × JsonTree)} (each : ∀ f ∈ fields, f.2.Readable) :
    (record fields).Readable := by
  refine .object (fun f hf => ?_) (fun f hf => ?_)
  · obtain ⟨g, _, rfl⟩ := List.mem_map.1 hf
    exact ⟨g.1.toList, rfl⟩
  · obtain ⟨g, hg, rfl⟩ := List.mem_map.1 hf
    exact each g hg

theorem readable_tagged (kind : String) {t : JsonTree} (h : t.Readable) :
    (tagged kind t).Readable :=
  readable_record (by simpa using h)

theorem depth_tagged (kind : String) (t : JsonTree) : (tagged kind t).depth = 1 + t.depth := by
  simp [tagged, record, depth, depthOfFields]

theorem field?_eq_some {fields : List (String × JsonTree)} (distinct : (fields.map Prod.fst).Nodup)
    {f : String × JsonTree} (mem : f ∈ fields) : field? fields f.1 = some f.2 := by
  have hfilter : fields.filter (fun g => g.1 == f.1) = [f] := by
    induction fields with
    | nil => cases mem
    | cons g fields ih =>
      obtain ⟨hnew, hdistinct⟩ := List.nodup_cons.1 distinct
      rcases List.mem_cons.1 mem with rfl | hmem
      · have hrest : fields.filter (fun g => g.1 == f.1) = [] := by
          refine List.filter_eq_nil_iff.2 fun g hg heq => hnew ?_
          exact List.mem_map.2 ⟨g, hg, eq_of_beq heq⟩
        rw [List.filter_cons, if_pos (beq_self_eq_true f.1), hrest]
      · have hne : ¬(g.1 == f.1) = true := by
          intro heq
          exact hnew (List.mem_map.2 ⟨f, hmem, (eq_of_beq heq).symm⟩)
        rw [List.filter_cons, if_neg hne, ih hdistinct hmem]
  rw [field?, hfilter]

theorem mapM_eq_some_map {α β : Type} {f : α → Option β} {g : α → β} {l : List α}
    (h : ∀ a ∈ l, f a = some (g a)) : l.mapM f = some (l.map g) := by
  induction l with
  | nil => rfl
  | cons a l ih =>
    rw [List.mapM_cons, h a (by simp), ih fun b hb => h b (by simp [hb])]
    rfl

theorem parts?_record (fields : List (String × JsonTree))
    (distinct : (fields.map Prod.fst).Nodup) :
    (record fields).parts? (fields.map Prod.fst) = some (fields.map Prod.snd) := by
  have hnamed : (fields.map fun f => (JsonString.ofChars f.1.toList, f.2)).mapM
      (fun f => f.1.toText?.map (·, f.2)) = some fields := by
    rw [List.mapM_map, mapM_eq_some_map (g := id) fun f _ => by
      simp [JsonString.toText?_ofChars], List.map_id]
  have hfound : (fields.map Prod.fst).mapM (field? fields) = some (fields.map Prod.snd) := by
    rw [List.mapM_map]
    exact mapM_eq_some_map fun f hf => field?_eq_some distinct hf
  rw [record, parts?, hnamed]
  exact hfound

end JsonTree

namespace Value

open JsonTree

mutual

def hasDecimal : Value → Bool
  | .scalar (.decimal _) => true
  | .scalar _ => false
  | .list items => anyDecimal items
  | .named subject _ => subject.hasDecimal
  | .quoted subject _ _ => subject.hasDecimal

def anyDecimal : List Value → Bool
  | [] => false
  | v :: vs => v.hasDecimal || anyDecimal vs

end

theorem ofJson?_ofText {name : String} {v : Value} (read : ofName? name = some v) {depth : Nat}
    (pos : 0 < depth) :
    ofJson? depth (ofText name) = if (ofText name).depth < depth then some v else none := by
  simp [ofText, JsonTree.depth, pos, ofJson?, JsonString.toText?_ofChars, read]

/-- A value below one bracket: neither the reader's depth nor anything else stands against it. -/
theorem ofJson?_tagged_scalar {kind : String} {t : JsonTree} {v : Value}
    (read : scalarOfTagged? kind t = some v) (flat : t.depth = 0) {depth : Nat}
    (pos : 0 < depth) :
    ofJson? depth (tagged kind t) = if (tagged kind t).depth < depth then some v else none := by
  rw [depth_tagged, flat]
  match depth, pos with
  | 1, _ => rfl
  | depth + 2, _ =>
    have hkind : JsonString.toText? (.ofChars kind.toList) = some kind := by
      rw [JsonString.toText?_ofChars, String.ofList_toList]
    rw [if_pos (by omega)]
    simp only [tagged, record, List.map_cons, List.map_nil, ofJson?, hkind, read]

/-- A value made of parts, which stand below two brackets. -/
theorem ofJson?_tagged_parts {kind : String} {t : JsonTree} {v : Value} (inner : Nat)
    (unread : scalarOfTagged? kind t = none) (nested : t.depth = 1 + inner)
    (read : ∀ depth, 0 < depth →
      ofParts? (ofJson? depth) kind t = if inner < depth then some v else none)
    {depth : Nat} (pos : 0 < depth) :
    ofJson? depth (tagged kind t) = if (tagged kind t).depth < depth then some v else none := by
  rw [depth_tagged, nested]
  match depth, pos with
  | 1, _ =>
    rw [if_neg (by omega)]
    rfl
  | depth + 2, _ =>
    have hkind : JsonString.toText? (.ofChars kind.toList) = some kind := by
      rw [JsonString.toText?_ofChars, String.ofList_toList]
    have hinner : 1 + (1 + inner) < depth + 2 ↔ inner < depth := by omega
    simp only [tagged, record, List.map_cons, List.map_nil, ofJson?, hkind, unread, hinner]
    by_cases hzero : depth = 0
    · rw [if_pos hzero, if_neg (by omega)]
    · rw [if_neg hzero, read depth (by omega)]

theorem ofJson?_ofScalar {s : Scalar} (exact : (Value.scalar s).hasDecimal = false) {depth : Nat}
    (pos : 0 < depth) :
    ofJson? depth (ofScalar s) = if (ofScalar s).depth < depth then some (.scalar s) else none := by
  cases s with
  | text s => exact ofJson?_tagged_scalar (by simp [scalarOfTagged?, text?_ofText]) rfl pos
  | integer n =>
    exact ofJson?_tagged_scalar (by simp [scalarOfTagged?, integer?_ofInteger]) rfl pos
  | decimal x => cases exact
  | boolean b => exact ofJson?_tagged_scalar (by simp [scalarOfTagged?, boolean?]) rfl pos
  | null => exact ofJson?_ofText rfl pos
  | nan => exact ofJson?_ofText rfl pos
  | roll count sides =>
    refine ofJson?_tagged_parts 0 rfl rfl (fun d hd => ?_) pos
    have hparts := parts?_record [("count", ofInteger count), ("sides", ofInteger sides)]
      (by simp)
    simp only [List.map_cons, List.map_nil] at hparts
    simp [ofParts?, hparts, integer?_ofInteger, hd]

mutual

/-- Reading what is written gives the value again, unless it is nested too deep. -/
theorem ofJson?_toJson (v : Value) (exact : v.hasDecimal = false) {depth : Nat}
    (pos : 0 < depth) :
    ofJson? depth v.toJson = if v.toJson.depth < depth then some v else none := by
  cases v with
  | scalar s => exact ofJson?_ofScalar exact pos
  | list items =>
    refine ofJson?_tagged_parts (depthOf (toJsonEach items)) rfl rfl (fun d hd => ?_) pos
    rw [ofParts?, mapM_toJsonEach items exact hd]
    split <;> rfl
  | named subject label =>
    refine ofJson?_tagged_parts subject.toJson.depth rfl ?_ (fun d hd => ?_) pos
    · simp [record, JsonTree.depth, depthOfFields, ofText]
    · have hparts := parts?_record [("value", subject.toJson), ("label", ofText label)]
        (by simp)
      simp only [List.map_cons, List.map_nil] at hparts
      simp only [ofParts?, hparts, ofJson?_toJson subject exact hd, text?_ofText]
      split <;> rfl
  | quoted subject opening closing =>
    refine ofJson?_tagged_parts subject.toJson.depth rfl ?_ (fun d hd => ?_) pos
    · simp [record, JsonTree.depth, depthOfFields, ofText]
    · have hparts := parts?_record [("value", subject.toJson),
        ("prefix", ofText opening), ("suffix", ofText closing)] (by simp)
      simp only [List.map_cons, List.map_nil] at hparts
      simp only [ofParts?, hparts, ofJson?_toJson subject exact hd, text?_ofText]
      split <;> rfl

theorem mapM_toJsonEach (items : List Value) (exact : anyDecimal items = false) {depth : Nat}
    (pos : 0 < depth) :
    (toJsonEach items).mapM (ofJson? depth) =
      if depthOf (toJsonEach items) < depth then some items else none := by
  cases items with
  | nil =>
    rw [toJsonEach, depthOf, if_pos pos]
    rfl
  | cons v items =>
    obtain ⟨hv, hitems⟩ := Bool.or_eq_false_iff.1 exact
    rw [toJsonEach, List.mapM_cons, ofJson?_toJson v hv pos, mapM_toJsonEach items hitems pos]
    simp only [depthOf, Nat.max_lt]
    by_cases hfirst : v.toJson.depth < depth
    · by_cases hrest : depthOf (toJsonEach items) < depth <;> simp [hfirst, hrest]
    · simp [hfirst]

end

theorem readable_ofScalar {s : Scalar} (exact : (Value.scalar s).hasDecimal = false) :
    (ofScalar s).Readable := by
  cases s with
  | text s => exact readable_tagged "Text" (readable_ofText s)
  | integer n => exact readable_tagged "Integer" (readable_ofInteger n)
  | decimal x => cases exact
  | boolean b => exact readable_tagged "Boolean" (.boolean b)
  | null => exact readable_ofText "None"
  | nan => exact readable_ofText "NaN"
  | roll count sides =>
    refine readable_tagged "Roll" (readable_record ?_)
    simp [readable_ofInteger]

mutual

theorem readable_toJson (v : Value) (exact : v.hasDecimal = false) : v.toJson.Readable := by
  cases v with
  | scalar s => exact readable_ofScalar exact
  | list items => exact readable_tagged "List" (.array (readable_toJsonEach items exact))
  | named subject label =>
    have hsubject := readable_toJson subject exact
    refine readable_tagged "Named" (readable_record ?_)
    simp [hsubject, readable_ofText]
  | quoted subject opening closing =>
    have hsubject := readable_toJson subject exact
    refine readable_tagged "Quoted" (readable_record ?_)
    simp [hsubject, readable_ofText]

theorem readable_toJsonEach (items : List Value) (exact : anyDecimal items = false) :
    ∀ t ∈ toJsonEach items, t.Readable := by
  cases items with
  | nil => nofun
  | cons v items =>
    obtain ⟨hv, hitems⟩ := Bool.or_eq_false_iff.1 exact
    exact List.forall_mem_cons.2 ⟨readable_toJson v hv, readable_toJsonEach items hitems⟩

end

/-- A value without decimals loses nothing in its JSON text: it is read back as it was, unless its
brackets are nested deeper than the reader goes. -/
theorem ofJsonText?_toJsonText (v : Value) (exact : v.hasDecimal = false) :
    ofJsonText? v.toJsonText = if v.toJson.depth < greatestDepth then some v else none := by
  rw [ofJsonText?, toJsonText, String.toList_ofList, ofText?_write (readable_toJson v exact),
    Option.bind_some]
  exact ofJson?_toJson v exact (by decide)

end Value

namespace Sample

/-- Wrappers in a list and in other wrappers, around what is hard to write. -/
def wrapped : Value :=
  .list
    [ .quoted (.text "a\"b\\\n\x01é😀") "'" "\\'",
      .named (.quoted (.named (.integer Int64.minValue) "]") "" "\x7f") "\"label\"",
      .list [.null, .nan, .roll (-1) Int64.maxValue, .boolean false], .list [] ]

end Sample

open Sample in
theorem ofJsonText?_toJsonText_wrapped :
    wrapped.hasDecimal = false ∧ Value.ofJsonText? wrapped.toJsonText = some wrapped :=
  ⟨rfl, (Value.ofJsonText?_toJsonText wrapped rfl).trans (if_pos (by decide))⟩

end FormulaEngine
