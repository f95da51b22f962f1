import HaarDetection.Cascade.Document
import HaarDetection.Proofs.Cascade.Loading
import HaarDetection.Proofs.Decimal.Printed
import HaarDetection.Proofs.Decimal.Readings
import HaarDetection.Proofs.Json.RoundTrip

/-!
# Documents of definitions

A definition is written as a value, field by field, and read back by its fields.

* `record?_jsonOfRecord`: the fields of a record are those that were written.
* `reread?`: what a double is read back as.
* `Documents`: **a value in a document,** which is well formed, and read back as what was written.
* `Documents.list`: so are lists.
* `RectDefinition.documents`, `FeatureDefinition.documents`, `NodeDefinition.documents`,
  `StageDefinition.documents`, `CascadeDefinition.documents`: so are definitions.
-/

namespace HaarDetection

open Json (record? required orDefault toWord? toDouble? toLink? toBool? toList?)

section Records

/-- A member of a record, as it stands in an object. -/
def keyed (m : String × Json) : Option String × Json := (some m.1, m.2)

theorem membersAllowed_of_nodup {fields : List String} {unknown : UnknownField} {before : List (Option String)}
    {members : List (String × Json)} (hfields : ∀ m ∈ members, m.1 ∈ fields)
    (hnodup : (members.map (·.1)).Nodup) (hbefore : ∀ m ∈ members, some m.1 ∉ before) :
    Json.membersAllowed fields unknown before (members.map keyed) = true := by
  induction members generalizing before with
  | nil => rfl
  | cons m members ih =>
    obtain ⟨hm, hfields⟩ := List.forall_mem_cons.1 hfields
    obtain ⟨hnew, hbefore⟩ := List.forall_mem_cons.1 hbefore
    obtain ⟨hnotin, hnodup⟩ := List.nodup_cons.1 hnodup
    have hallowed : Json.memberAllowed fields unknown before (some m.1) = true := by
      simp [Json.memberAllowed, hm, hnew]
    rw [List.map_cons]
    refine Bool.and_eq_true_iff.2 ⟨hallowed, ih hfields hnodup ?_⟩
    intro m' hm' hmem
    rcases List.mem_cons.1 hmem with heq | hmem
    · exact hnotin (List.mem_map.2 ⟨m', hm', Option.some.inj heq⟩)
    · exact hbefore m' hm' hmem

theorem member?_of_mem {members : List (String × Json)} (hnodup : (members.map (·.1)).Nodup)
    {m : String × Json} (hm : m ∈ members) : Json.member? (members.map keyed) m.1 = some m.2 := by
  induction members with
  | nil => cases hm
  | cons m' members ih =>
    obtain ⟨hnotin, hnodup⟩ := List.nodup_cons.1 hnodup
    rcases List.mem_cons.1 hm with rfl | hm
    · simp [Json.member?, keyed]
    · have hne : m'.1 ≠ m.1 := by
        intro heq
        exact hnotin (List.mem_map.2 ⟨m, hm, heq.symm⟩)
      have hskip : Json.member? ((m' :: members).map keyed) m.1 = Json.member? (members.map keyed) m.1 := by
        simp [Json.member?, keyed, hne]
      rw [hskip, ih hnodup hm]

/-- **The fields of a record** are those that were written. -/
theorem record?_jsonOfRecord {fields : List String} {unknown : UnknownField}
    {members : List (String × Json)} (hfields : members.map (·.1) = fields) (hnodup : fields.Nodup) :
    record? fields unknown (jsonOfRecord members) = some (members.map fun m => some m.2) := by
  subst hfields
  have hallowed : Json.membersAllowed (members.map (·.1)) unknown [] (members.map keyed) = true :=
    membersAllowed_of_nodup (fun m hm => List.mem_map_of_mem hm) hnodup (fun _ _ => List.not_mem_nil)
  unfold record? jsonOfRecord
  change (if Json.membersAllowed _ unknown [] (members.map keyed) = true then _ else _) = _
  rw [if_pos hallowed, List.map_map]
  exact congrArg some (List.map_congr_left fun m hm => member?_of_mem hnodup hm)

theorem wellFormed_jsonOfRecord {members : List (String × Json)} (h : ∀ m ∈ members, m.2.WellFormed) :
    (jsonOfRecord members).WellFormed := by
  refine .object ?_
  intro m hm
  obtain ⟨m', hm', rfl⟩ := List.mem_map.1 hm
  exact h m' hm'

end Records

/-- What a double is read back as, once it has been written. It need not be the double that was
written: the digits are the shortest ones that tell it from its neighbors, but reading them rounds more
than once (see `Numeral.scaled`), and may end at a neighbor. -/
def reread? (x : Float) : Option Float := (documentNumeral? x).bind Numeral.toFloat?

/-- A double that is read back as what it was, if it is finite. Not every one is, also among ordinary
numbers, so where this is assumed it is assumed of the numbers at hand. -/
def Survives (x : Float) : Prop := x.isFinite = true → reread? x = some x

example : ¬Survives (1 / 11) := by
  intro h
  exact absurd (h (by decide +kernel)) (by decide +kernel)

section Documents

variable {β : Type} {toJson : β → Json} {ofJson? : Json → Option β} {Kept Sound : β → Prop}

/-- **A value in a document.** What is written is well formed. What is sound is read back as what it
was, if its numbers are, and nothing else is read. -/
structure Documents (toJson : β → Json) (ofJson? : Json → Option β) (Kept Sound : β → Prop) : Prop where
  wellFormed : ∀ x, (toJson x).WellFormed
  read_iff : ∀ x, Kept x → ∀ y, ofJson? (toJson x) = some y ↔ Sound x ∧ y = x
  sound : ∀ json y, ofJson? json = some y → Sound y

theorem Documents.of_required (h : Documents toJson ofJson? Kept Sound) {value : Option Json} {y : β}
    (hy : required ofJson? value = some y) : Sound y := by
  cases value with
  | none => cases hy
  | some json => exact h.sound json y hy

theorem Documents.of_orDefault (h : Documents toJson ofJson? Kept Sound) {value : Option Json}
    {fallback y : β} (hf : Sound fallback) (hy : orDefault ofJson? fallback value = some y) :
    Sound y := by
  cases value with
  | none => exact Option.some.inj hy ▸ hf
  | some json => exact h.sound json y hy

/-- A list is written and read like its elements. -/
theorem Documents.list (h : Documents toJson ofJson? Kept Sound) :
    Documents (fun xs => .array (xs.map toJson)) (toList? ofJson?) (∀ x ∈ ·, Kept x) (∀ x ∈ ·, Sound x)
    where
  wellFormed xs := by
    refine .array ?_
    simp only [List.forall_mem_map]
    exact fun x _ => h.wellFormed x
  read_iff xs hkept := by
    simp only [toList?]
    induction xs with
    | nil => intro ys; simp [eq_comm]
    | cons x xs ih =>
      obtain ⟨hx, hxs⟩ := List.forall_mem_cons.1 hkept
      intro ys
      simp only [List.map_cons, List.mapM_cons, Option.bind_eq_bind, Option.bind_eq_some_iff,
        h.read_iff x hx, ih hxs, List.forall_mem_cons]
      constructor
      · rintro ⟨_, ⟨hsx, rfl⟩, _, ⟨hsxs, rfl⟩, hys⟩
        exact ⟨⟨hsx, hsxs⟩, (Option.some.inj hys).symm⟩
      · rintro ⟨⟨hsx, hsxs⟩, rfl⟩
        exact ⟨x, ⟨hsx, rfl⟩, xs, ⟨hsxs, rfl⟩, rfl⟩
  sound json ys hys := by
    cases json with
    | array es =>
      simp only [toList?] at hys
      induction es generalizing ys with
      | nil =>
        cases hys
        exact fun _ hy => absurd hy List.not_mem_nil
      | cons e es ih =>
        simp only [List.mapM_cons, Option.bind_eq_bind, Option.bind_eq_some_iff] at hys
        obtain ⟨y, hy, zs, hzs, heq⟩ := hys
        cases heq
        exact List.forall_mem_cons.2 ⟨h.sound e y hy, ih zs hzs⟩
    | null => cases hys
    | bool b => cases hys
    | number n => cases hys
    | string text => cases hys
    | object ms => cases hys

/-- **Doubles** are read back when they are finite. -/
theorem documents_double : Documents jsonOfDouble toDouble? Survives (fun x => x.isFinite = true)
    where
  wellFormed x := by
    unfold jsonOfDouble
    split
    · rename_i n hn
      exact .number (documentNumeral?_wellFormed hn)
    · exact .null
  read_iff x hkept y := by
    unfold jsonOfDouble
    cases hn : documentNumeral? x with
    | none =>
      rw [documentNumeral?_eq_none_iff.1 hn]
      exact ⟨nofun, nofun⟩
    | some n =>
      have hfin : x.isFinite = true := by
        rw [← Bool.not_eq_false, ← documentNumeral?_eq_none_iff, hn]
        exact Option.some_ne_none n
      have hread : n.toFloat? = some x := by
        have := hkept hfin
        rwa [reread?, hn] at this
      simp [toDouble?, hread, hfin, eq_comm]
  sound json y hy := by
    cases json with
    | number n => exact n.isFinite_of_toFloat? hy
    | null => cases hy
    | bool b => cases hy
    | array es => cases hy
    | string text => cases hy
    | object ms => cases hy

/-- **Links** are read back when they fit in 64 bits. -/
theorem documents_link : Documents jsonOfInt toLink? (fun _ => True) Numeral.FitsWord where
  wellFormed z := .number (Numeral.ofInt_wellFormed z)
  read_iff _ _ _ := Numeral.toInt?_ofInt_iff
  sound json z hz := by
    cases json with
    | number n => exact Numeral.fits_of_toInt? hz
    | null => cases hz
    | bool b => cases hz
    | array es => cases hz
    | string text => cases hz
    | object ms => cases hz

theorem toWord?_jsonOfNat (n : UInt32) : toWord? (jsonOfNat n.toNat) = some n := by
  have hn := n.toNat_lt
  simp only [toWord?, jsonOfNat, Numeral.toNat?_ofInt (hn.trans (by decide)), Option.bind_eq_bind,
    Option.bind_some]
  rw [if_pos hn, UInt32.ofNat_toNat]

end Documents

section Definitions

theorem RectDefinition.documents :
    Documents toJson ofJson? (fun d => Survives d.weight) (fun d => d.weight.isFinite = true) where
  wellFormed d := by
    refine wellFormed_jsonOfRecord ?_
    simp only [List.forall_mem_cons]
    exact ⟨documents_link.wellFormed _, documents_link.wellFormed _, documents_link.wellFormed _,
      documents_link.wellFormed _, documents_double.wellFormed _, nofun⟩
  read_iff d hd y := by
    have hfields : record? fields .refused d.toJson =
        some [some (jsonOfNat d.region.x.toNat), some (jsonOfNat d.region.y.toNat),
          some (jsonOfNat d.region.width.toNat), some (jsonOfNat d.region.height.toNat),
          some (jsonOfDouble d.weight)] :=
      record?_jsonOfRecord rfl (by decide)
    unfold ofJson?
    simp only [hfields, Option.bind_eq_bind, Option.bind_some, required, toWord?_jsonOfNat,
      Option.bind_eq_some_iff, documents_double.read_iff _ hd]
    constructor
    · rintro ⟨_, ⟨hfin, rfl⟩, heq⟩
      exact ⟨hfin, (Option.some.inj heq).symm⟩
    · rintro ⟨hfin, rfl⟩
      exact ⟨_, ⟨hfin, rfl⟩, rfl⟩
  sound json y hy := by
    unfold ofJson? at hy
    simp only [Option.bind_eq_bind, Option.bind_eq_some_iff] at hy
    obtain ⟨values, -, hy⟩ := hy
    split at hy
    · simp only [Option.bind_eq_some_iff] at hy
      obtain ⟨_, -, _, -, _, -, _, -, w, hw, heq⟩ := hy
      cases heq
      exact documents_double.of_required hw
    · cases hy

/-- The weights of a feature. -/
def FeatureDefinition.numbers (d : FeatureDefinition) : List Float := d.rects.map (·.weight)

theorem FeatureDefinition.documents : Documents toJson ofJson? (fun d => ∀ x ∈ d.numbers, Survives x)
    (fun d => ∀ x ∈ d.numbers, x.isFinite = true) where
  wellFormed d := by
    refine wellFormed_jsonOfRecord ?_
    simp only [List.forall_mem_cons]
    exact ⟨.bool _, RectDefinition.documents.list.wellFormed _, nofun⟩
  read_iff d hd y := by
    have hfields : record? fields .refused d.toJson =
        some [some (.bool d.tilted), some (.array (d.rects.map RectDefinition.toJson))] :=
      record?_jsonOfRecord rfl (by decide)
    simp only [numbers, List.forall_mem_map] at hd ⊢
    unfold ofJson?
    simp only [hfields, Option.bind_eq_bind, Option.bind_some, required, orDefault, toBool?,
      Option.bind_eq_some_iff, RectDefinition.documents.list.read_iff _ hd]
    constructor
    · rintro ⟨_, ⟨hfin, rfl⟩, heq⟩
      exact ⟨hfin, (Option.some.inj heq).symm⟩
    · rintro ⟨hfin, rfl⟩
      exact ⟨_, ⟨hfin, rfl⟩, rfl⟩
  sound json y hy := by
    unfold ofJson? at hy
    simp only [Option.bind_eq_bind, Option.bind_eq_some_iff] at hy
    obtain ⟨values, -, hy⟩ := hy
    split at hy
    · simp only [Option.bind_eq_some_iff] at hy
      obtain ⟨_, -, rects, hrects, heq⟩ := hy
      cases heq
      simp only [numbers, List.forall_mem_map]
      exact RectDefinition.documents.list.of_required hrects
    · cases hy

/-- The numbers of a node. -/
def NodeDefinition.numbers (d : NodeDefinition) : List Float :=
  d.threshold :: d.leftValue :: d.rightValue :: d.feature.numbers

/-- A node with finite numbers, and links that fit. -/
structure NodeDefinition.Representable (d : NodeDefinition) : Prop where
  numbers : ∀ x ∈ d.numbers, x.isFinite = true
  leftNode : Numeral.FitsWord d.leftNode
  rightNode : Numeral.FitsWord d.rightNode

theorem fitsWord_none : Numeral.FitsWord (-1) := by
  unfold Numeral.FitsWord
  omega

theorem NodeDefinition.documents :
    Documents toJson ofJson? (fun d => ∀ x ∈ d.numbers, Survives x) Representable where
  wellFormed d := by
    refine wellFormed_jsonOfRecord ?_
    simp only [List.forall_mem_cons]
    exact ⟨documents_double.wellFormed _, documents_double.wellFormed _, documents_double.wellFormed _,
      documents_link.wellFormed _, documents_link.wellFormed _, FeatureDefinition.documents.wellFormed _,
      nofun⟩
  read_iff d hd y := by
    have hfields : record? fields .refused d.toJson =
        some [some (jsonOfDouble d.threshold), some (jsonOfDouble d.leftValue),
          some (jsonOfDouble d.rightValue), some (jsonOfInt d.leftNode), some (jsonOfInt d.rightNode),
          some d.feature.toJson] :=
      record?_jsonOfRecord rfl (by decide)
    simp only [numbers, List.forall_mem_cons] at hd
    obtain ⟨hthreshold, hleft, hright, hfeature⟩ := hd
    unfold ofJson?
    simp only [hfields, Option.bind_eq_bind, Option.bind_some, required, orDefault,
      Option.bind_eq_some_iff, documents_double.read_iff _ hthreshold,
      documents_double.read_iff _ hleft, documents_double.read_iff _ hright,
      documents_link.read_iff _ trivial, FeatureDefinition.documents.read_iff _ hfeature]
    constructor
    · rintro ⟨_, ⟨h1, rfl⟩, _, ⟨h2, rfl⟩, _, ⟨h3, rfl⟩, _, ⟨h4, rfl⟩, _, ⟨h5, rfl⟩, _, ⟨h6, rfl⟩, heq⟩
      refine ⟨⟨?_, h4, h5⟩, (Option.some.inj heq).symm⟩
      simp only [numbers, List.forall_mem_cons]
      exact ⟨h1, h2, h3, h6⟩
    · rintro ⟨⟨hnumbers, h4, h5⟩, rfl⟩
      simp only [numbers, List.forall_mem_cons] at hnumbers
      obtain ⟨h1, h2, h3, h6⟩ := hnumbers
      exact ⟨_, ⟨h1, rfl⟩, _, ⟨h2, rfl⟩, _, ⟨h3, rfl⟩, _, ⟨h4, rfl⟩, _, ⟨h5, rfl⟩, _, ⟨h6, rfl⟩, rfl⟩
  sound json y hy := by
    unfold ofJson? at hy
    simp only [Option.bind_eq_bind, Option.bind_eq_some_iff] at hy
    obtain ⟨values, -, hy⟩ := hy
    split at hy
    · simp only [Option.bind_eq_some_iff] at hy
      obtain ⟨_, h1, _, h2, _, h3, _, h4, _, h5, _, h6, heq⟩ := hy
      cases heq
      refine ⟨?_, documents_link.of_orDefault fitsWord_none h4,
        documents_link.of_orDefault fitsWord_none h5⟩
      simp only [numbers, List.forall_mem_cons]
      exact ⟨documents_double.of_required h1, documents_double.of_required h2,
        documents_double.of_required h3, FeatureDefinition.documents.of_required h6⟩
    · cases hy

/-- The numbers of a stage. -/
def StageDefinition.numbers (d : StageDefinition) : List Float :=
  d.threshold :: d.trees.flatMap fun t => t.flatMap NodeDefinition.numbers

/-- A stage of such nodes with a finite threshold, and links that fit. -/
structure StageDefinition.Representable (d : StageDefinition) : Prop where
  threshold : d.threshold.isFinite = true
  parent : Numeral.FitsWord d.parent
  next : Numeral.FitsWord d.next
  nodes : ∀ t ∈ d.trees, ∀ n ∈ t, n.Representable

theorem StageDefinition.documents :
    Documents toJson ofJson? (fun d => ∀ x ∈ d.numbers, Survives x) Representable where
  wellFormed d := by
    refine wellFormed_jsonOfRecord ?_
    simp only [List.forall_mem_cons]
    exact ⟨documents_double.wellFormed _, documents_link.wellFormed _, documents_link.wellFormed _,
      NodeDefinition.documents.list.list.wellFormed _, nofun⟩
  read_iff d hd y := by
    have hfields : record? fields .refused d.toJson =
        some [some (jsonOfDouble d.threshold), some (jsonOfInt d.parent), some (jsonOfInt d.next),
          some (.array (d.trees.map fun t => .array (t.map NodeDefinition.toJson)))] :=
      record?_jsonOfRecord rfl (by decide)
    simp only [numbers, List.forall_mem_cons, List.forall_mem_flatMap] at hd
    obtain ⟨hthreshold, htrees⟩ := hd
    unfold ofJson?
    simp only [hfields, Option.bind_eq_bind, Option.bind_some, required, orDefault,
      Option.bind_eq_some_iff, documents_double.read_iff _ hthreshold,
      documents_link.read_iff _ trivial, NodeDefinition.documents.list.list.read_iff _ htrees]
    constructor
    · rintro ⟨_, ⟨h1, rfl⟩, _, ⟨h2, rfl⟩, _, ⟨h3, rfl⟩, _, ⟨h4, rfl⟩, heq⟩
      exact ⟨⟨h1, h2, h3, h4⟩, (Option.some.inj heq).symm⟩
    · rintro ⟨⟨h1, h2, h3, h4⟩, rfl⟩
      exact ⟨_, ⟨h1, rfl⟩, _, ⟨h2, rfl⟩, _, ⟨h3, rfl⟩, _, ⟨h4, rfl⟩, rfl⟩
  sound json y hy := by
    unfold ofJson? at hy
    simp only [Option.bind_eq_bind, Option.bind_eq_some_iff] at hy
    obtain ⟨values, -, hy⟩ := hy
    split at hy
    · simp only [Option.bind_eq_some_iff] at hy
      obtain ⟨_, h1, _, h2, _, h3, _, h4, heq⟩ := hy
      cases heq
      exact ⟨documents_double.of_required h1, documents_link.of_orDefault fitsWord_none h2,
        documents_link.of_orDefault fitsWord_none h3, NodeDefinition.documents.list.list.of_required h4⟩
    · cases hy

/-- The numbers of a cascade. -/
def CascadeDefinition.numbers (d : CascadeDefinition) : List Float :=
  d.stages.flatMap StageDefinition.numbers

/-- **A definition is read back** as what was written when its numbers are finite and its links fit, and
not at all otherwise. -/
theorem CascadeDefinition.documents :
    Documents toJson ofJson? (fun d => ∀ x ∈ d.numbers, Survives x)
      (fun d => ∀ s ∈ d.stages, s.Representable) where
  wellFormed d := by
    refine wellFormed_jsonOfRecord ?_
    simp only [List.forall_mem_cons]
    exact ⟨documents_link.wellFormed _, documents_link.wellFormed _,
      StageDefinition.documents.list.wellFormed _, nofun⟩
  read_iff d hd y := by
    have hfields : record? fields .refused d.toJson =
        some [some (jsonOfNat d.window.width.toNat), some (jsonOfNat d.window.height.toNat),
          some (.array (d.stages.map StageDefinition.toJson))] :=
      record?_jsonOfRecord rfl (by decide)
    simp only [numbers, List.forall_mem_flatMap] at hd
    unfold ofJson?
    simp only [hfields, Option.bind_eq_bind, Option.bind_some, required, toWord?_jsonOfNat,
      Option.bind_eq_some_iff, StageDefinition.documents.list.read_iff _ hd]
    constructor
    · rintro ⟨_, ⟨h1, rfl⟩, heq⟩
      exact ⟨h1, (Option.some.inj heq).symm⟩
    · rintro ⟨h1, rfl⟩
      exact ⟨_, ⟨h1, rfl⟩, rfl⟩
  sound json y hy := by
    unfold ofJson? at hy
    simp only [Option.bind_eq_bind, Option.bind_eq_some_iff] at hy
    obtain ⟨values, -, hy⟩ := hy
    split at hy
    · simp only [Option.bind_eq_some_iff] at hy
      obtain ⟨_, -, _, -, stages, hstages, heq⟩ := hy
      cases heq
      exact StageDefinition.documents.list.of_required hstages
    · cases hy

end Definitions

end HaarDetection
