import Mathlib

/-!
# Grammars of words in a line

A grammar relates an input to what it stands for.  Adjacent pieces stand for
their concatenation, and items with blank symbols between them for a list; the
rules here read such an input symbol by symbol from the left.
-/

namespace MiniKV.Grammar

variable {Symbol Letter Item : Type*}

/-- Any number of adjacent pieces. -/
inductive Adjacent (piece : List Symbol → List Letter → Prop) :
    List Symbol → List Letter → Prop
  | nil : Adjacent piece [] []
  | cons {front back : List Symbol} {start rest : List Letter}
      (hpiece : piece front start) (hrest : Adjacent piece back rest) :
      Adjacent piece (front ++ back) (start ++ rest)

/-- One or more adjacent pieces. -/
inductive Joined (piece : List Symbol → List Letter → Prop) :
    List Symbol → List Letter → Prop
  | intro {front back : List Symbol} {start rest : List Letter}
      (hpiece : piece front start) (hrest : Adjacent piece back rest) :
      Joined piece (front ++ back) (start ++ rest)

/-- Only blank symbols. -/
def AllBlank (blank : Symbol → Prop) (input : List Symbol) : Prop :=
  ∀ symbol ∈ input, blank symbol

/-- Items with one or more blank symbols between each two. -/
inductive Separated (blank : Symbol → Prop) (item : List Symbol → Item → Prop) :
    List Symbol → List Item → Prop
  | nil : Separated blank item [] []
  | single {input : List Symbol} {value : Item} (hitem : item input value) :
      Separated blank item input [value]
  | cons {input gap rest : List Symbol} {value next : Item}
      {values : List Item} (hitem : item input value) (hgap : gap ≠ [])
      (hblank : AllBlank blank gap)
      (hrest : Separated blank item rest (next :: values)) :
      Separated blank item (input ++ (gap ++ rest)) (value :: next :: values)

/-- Separated items with optional blank symbols around them. -/
inductive Spaced (blank : Symbol → Prop) (item : List Symbol → Item → Prop) :
    List Symbol → List Item → Prop
  | intro {before body after : List Symbol} {values : List Item}
      (hbefore : AllBlank blank before)
      (hbody : Separated blank item body values)
      (hafter : AllBlank blank after) :
      Spaced blank item (before ++ (body ++ after)) values

section Blanks

variable {blank : Symbol → Prop}

theorem allBlank_nil : AllBlank blank [] := by simp [AllBlank]

theorem AllBlank.cons {symbol : Symbol} {input : List Symbol}
    (hsymbol : blank symbol) (hinput : AllBlank blank input) :
    AllBlank blank (symbol :: input) :=
  List.forall_mem_cons.mpr ⟨hsymbol, hinput⟩

theorem AllBlank.append {left right : List Symbol}
    (hleft : AllBlank blank left) (hright : AllBlank blank right) :
    AllBlank blank (left ++ right) :=
  List.forall_mem_append.mpr ⟨hleft, hright⟩

end Blanks

theorem Joined.of_piece {piece : List Symbol → List Letter → Prop}
    {input : List Symbol} {text : List Letter} (hpiece : piece input text) :
    Joined piece input text := by
  have hjoined : Joined piece (input ++ []) (text ++ []) :=
    .intro hpiece .nil
  rwa [List.append_nil, List.append_nil] at hjoined

theorem Joined.cons {piece : List Symbol → List Letter → Prop}
    {front back : List Symbol} {start rest : List Letter}
    (hpiece : piece front start) (hback : Joined piece back rest) :
    Joined piece (front ++ back) (start ++ rest) := by
  cases hback with
  | intro hfirst hrest => exact .intro hpiece (.cons hfirst hrest)

/-- Words written down with blanks between them are read as items one by one. -/
theorem Separated.reread {blank : Symbol → Prop}
    {item : List Symbol → Item → Prop} {body : List Symbol}
    {words : List (List Symbol)} {values : List Item}
    (hbody : Separated blank Eq body words)
    (hitems : List.Forall₂ item words values) :
    Separated blank item body values := by
  induction hbody generalizing values with
  | nil =>
      cases hitems
      exact .nil
  | single hword =>
      cases hitems with
      | cons hitem hrest =>
          cases hrest
          rw [hword]
          exact .single hitem
  | cons hword hgap hblank hrest ih =>
      cases hitems with
      | cons hitem hothers =>
          have hback := ih hothers
          cases hothers with
          | cons hnext hlast =>
              rw [hword]
              exact .cons hitem hgap hblank hback

/-- Words with one gap between each two. -/
theorem separated_intercalate {blank : Symbol → Prop} {gap : List Symbol}
    (hgap : gap ≠ []) (hblank : AllBlank blank gap)
    (words : List (List Symbol)) :
    Separated blank Eq (gap.intercalate words) words := by
  induction words with
  | nil => exact .nil
  | cons word words ih =>
      cases words with
      | nil =>
          rw [List.intercalate_singleton]
          exact .single rfl
      | cons next words =>
          rw [List.intercalate_cons_cons, List.append_assoc]
          exact .cons rfl hgap hblank ih

/-- What stands neither in the words nor in the gap is not in the line. -/
theorem not_mem_intercalate {symbol : Symbol} {gap : List Symbol}
    (hgap : symbol ∉ gap) {words : List (List Symbol)}
    (hwords : ∀ word ∈ words, symbol ∉ word) :
    symbol ∉ gap.intercalate words := by
  induction words with
  | nil => exact List.not_mem_nil
  | cons word words ih =>
      obtain ⟨hword, hrest⟩ := List.forall_mem_cons.mp hwords
      cases words with
      | nil =>
          rw [List.intercalate_singleton]
          exact hword
      | cons next words =>
          rw [List.intercalate_cons_cons, List.append_assoc, List.mem_append,
            List.mem_append]
          rintro (hmem | hmem | hmem)
          · exact hword hmem
          · exact hgap hmem
          · exact ih hrest hmem

namespace Spaced

variable {blank : Symbol → Prop} {item : List Symbol → Item → Prop}

/-- Nothing around the items. -/
theorem of_separated {body : List Symbol} {values : List Item}
    (hbody : Separated blank item body values) :
    Spaced blank item body values := by
  have hspaced : Spaced blank item ([] ++ (body ++ [])) values :=
    .intro allBlank_nil hbody allBlank_nil
  rwa [List.append_nil] at hspaced

theorem nil : Spaced blank item [] [] := of_separated .nil

/-- A blank symbol in front. -/
theorem blank_cons {symbol : Symbol} {rest : List Symbol} {values : List Item}
    (hsymbol : blank symbol) (hrest : Spaced blank item rest values) :
    Spaced blank item (symbol :: rest) values := by
  cases hrest with
  | intro hbefore hbody hafter =>
      exact .intro (hbefore.cons hsymbol) hbody hafter

theorem single {input : List Symbol} {value : Item} (hitem : item input value) :
    Spaced blank item input [value] :=
  of_separated (.single hitem)

/-- An item in front, with a blank symbol behind it. -/
theorem item_cons {input rest : List Symbol} {symbol : Symbol} {value : Item}
    {values : List Item} (hitem : item input value) (hsymbol : blank symbol)
    (hrest : Spaced blank item rest values) :
    Spaced blank item (input ++ symbol :: rest) (value :: values) := by
  cases hrest with
  | @intro before body after values hbefore hbody hafter =>
      have hgap : AllBlank blank (symbol :: before) := hbefore.cons hsymbol
      cases values with
      | nil =>
          cases hbody
          have hspaced : Spaced blank item
              ([] ++ (input ++ (symbol :: before ++ after))) [value] :=
            .intro allBlank_nil (.single hitem) (hgap.append hafter)
          exact hspaced
      | cons next values =>
          have hspaced : Spaced blank item
              ([] ++ ((input ++ (symbol :: before ++ body)) ++ after))
              (value :: next :: values) :=
            .intro allBlank_nil
              (.cons hitem (List.cons_ne_nil _ _) hgap hbody) hafter
          simpa using hspaced

theorem reread {line : List Symbol} {words : List (List Symbol)}
    {values : List Item} (hline : Spaced blank Eq line words)
    (hitems : List.Forall₂ item words values) :
    Spaced blank item line values := by
  cases hline with
  | intro hbefore hbody hafter =>
      exact .intro hbefore (hbody.reread hitems) hafter

end Spaced

end MiniKV.Grammar
