import LogicalForms.Text.Split

/-!
# Feature keys

A feature is named by a path of tags joined by `#`, for instance `LEX#boston`.  The leading tag
names the feature set that the key belongs to.  Keys are ordered by their text, character by
character.
-/

namespace LogicalForms

/-- The name of a feature. -/
structure FeatureKey where
  /-- The tags of the key, joined by `#`. -/
  text : String
  deriving DecidableEq, Inhabited

namespace FeatureKey

instance : LT FeatureKey := ⟨fun a b => a.text < b.text⟩

instance (a b : FeatureKey) : Decidable (a < b) := inferInstanceAs (Decidable (a.text < b.text))

theorem lt_irrefl (a : FeatureKey) : ¬a < a := String.lt_irrefl a.text

theorem lt_trans {a b c : FeatureKey} : a < b → b < c → a < c := String.lt_trans

theorem lt_of_not_lt_of_ne {a b : FeatureKey} (h : ¬a < b) (hne : a ≠ b) : b < a := by
  apply Decidable.byContradiction
  intro h'
  have hle : a.text ≤ b.text := String.not_lt.1 h'
  have hge : b.text ≤ a.text := String.not_lt.1 h
  exact hne (by cases a; cases b; simpa using String.le_antisymm hle hge)

/-- The key with these tags. -/
def ofTags (tags : List String) : FeatureKey := ⟨"#".intercalate tags⟩

/-- The parts of the key between the `#`. -/
def tags (k : FeatureKey) : List String := (Text.splitAll '#' k.text.toList).map String.ofList

/-- The tag that the key starts with. -/
def leadingTag (k : FeatureKey) : String := k.tags.headD ""

end FeatureKey

end LogicalForms
