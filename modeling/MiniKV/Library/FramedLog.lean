import Mathlib

/-!
# Logs of self-delimiting entries

A log is the concatenation of the images of its entries.  A reader looks at the
front of the unread input and sees a whole entry, an unfinished one, or neither.
The four laws of `FrameFormat` are enough to say that every input splits into
whole entries and a rest in exactly one way, and what a log cut at an arbitrary
place is read as.
-/

namespace MiniKV

/-- What a reader sees at the front of the unread input. -/
inductive Head (Entry : Type*)
  | entry (value : Entry)
  | incomplete
  | malformed

/-- An encoding whose entries announce their own length. -/
structure FrameFormat (Symbol Entry : Type*) where
  image : Entry → List Symbol
  head : List Symbol → Head Entry
  head_nil : head [] = .incomplete
  head_image : ∀ entry rest, head (image entry ++ rest) = .entry entry
  head_sound : ∀ {input entry}, head input = .entry entry →
    image entry <+: input
  head_cut : ∀ {entry input}, input <+: image entry → input ≠ image entry →
    head input = .incomplete

namespace FrameFormat

variable {Symbol Entry : Type*} (format : FrameFormat Symbol Entry)

/-- An empty image would be an entry at the front of the empty input. -/
theorem length_image_pos (entry : Entry) : 0 < (format.image entry).length := by
  rw [List.length_pos_iff]
  intro hnil
  have hhead := format.head_image entry []
  rw [hnil, List.nil_append, format.head_nil] at hhead
  cases hhead

/-- The concatenated images of a list of entries. -/
def imageAll (entries : List Entry) : List Symbol :=
  entries.flatMap format.image

@[simp]
theorem imageAll_nil : format.imageAll [] = [] := rfl

@[simp]
theorem imageAll_cons (entry : Entry) (entries : List Entry) :
    format.imageAll (entry :: entries) =
      format.image entry ++ format.imageAll entries := by
  simp [imageAll]

@[simp]
theorem imageAll_append (left right : List Entry) :
    format.imageAll (left ++ right) =
      format.imageAll left ++ format.imageAll right := by
  simp [imageAll]

/-- The front of the input is not a whole entry. -/
def AtEnd (input : List Symbol) : Prop :=
  ∀ entry, format.head input ≠ .entry entry

/-- A cut does not make a whole entry of what is none. -/
theorem AtEnd.of_prefix {input longer : List Symbol}
    (hend : format.AtEnd longer) (hcut : input <+: longer) :
    format.AtEnd input := by
  intro entry hhead
  obtain ⟨rest, hrest⟩ := (format.head_sound hhead).trans hcut
  have hwhole := format.head_image entry rest
  rw [hrest] at hwhole
  exact hend entry hwhole

/-- Every input is a run of whole entries followed by something else. -/
theorem exists_split (input : List Symbol) :
    ∃ entries rest, input = format.imageAll entries ++ rest ∧
      format.AtEnd rest := by
  induction hlength : input.length using Nat.strong_induction_on
    generalizing input with
  | _ length ih =>
      by_cases hend : format.AtEnd input
      · exact ⟨[], input, rfl, hend⟩
      · obtain ⟨entry, hhead⟩ := not_forall_not.mp hend
        obtain ⟨unread, hunread⟩ := format.head_sound hhead
        have hpos := format.length_image_pos entry
        have hshorter : unread.length < length := by
          rw [← hlength, ← hunread, List.length_append]
          omega
        obtain ⟨entries, rest, hsplit, hrest⟩ := ih _ hshorter unread rfl
        refine ⟨entry :: entries, rest, ?_, hrest⟩
        rw [← hunread, hsplit, imageAll_cons, List.append_assoc]

/-- An input splits into entries and a rest in one way only. -/
theorem split_unique {left right : List Entry} {leftRest rightRest : List Symbol}
    (heq : format.imageAll left ++ leftRest =
      format.imageAll right ++ rightRest)
    (hleft : format.AtEnd leftRest) (hright : format.AtEnd rightRest) :
    left = right ∧ leftRest = rightRest := by
  induction left generalizing right with
  | nil =>
      cases right with
      | nil => exact ⟨rfl, heq⟩
      | cons entry right =>
          rw [imageAll_nil, List.nil_append, imageAll_cons,
            List.append_assoc] at heq
          exact absurd (heq ▸ format.head_image entry _) (hleft entry)
  | cons entry left ih =>
      cases right with
      | nil =>
          rw [imageAll_nil, List.nil_append, imageAll_cons,
            List.append_assoc] at heq
          exact absurd (heq ▸ format.head_image entry _) (hright entry)
      | cons other right =>
          rw [imageAll_cons, imageAll_cons, List.append_assoc,
            List.append_assoc] at heq
          have hother := format.head_image other
            (format.imageAll right ++ rightRest)
          rw [← heq, format.head_image] at hother
          cases hother
          obtain ⟨hentries, hrest⟩ := ih (List.append_cancel_left heq)
          exact ⟨by rw [hentries], hrest⟩

/-- A log cut after `room` symbols is the longest run of leading entries that
fit, followed by an unfinished entry. -/
theorem take_imageAll (entries : List Entry) (room : ℕ) :
    ∃ leading following tail, entries = leading ++ following ∧
      (format.imageAll entries).take room = format.imageAll leading ++ tail ∧
      format.head tail = .incomplete ∧
      ∀ next more, following = next :: more →
        room < (format.imageAll (leading ++ [next])).length := by
  induction entries generalizing room with
  | nil => exact ⟨[], [], [], rfl, by simp, format.head_nil, by simp⟩
  | cons entry entries ih =>
      by_cases hfits : (format.image entry).length ≤ room
      · obtain ⟨leading, following, tail, hsplit, htake, htail, hnext⟩ :=
          ih (room - (format.image entry).length)
        refine ⟨entry :: leading, following, tail, by simp [hsplit], ?_,
          htail, ?_⟩
        · rw [imageAll_cons, imageAll_cons, List.take_append,
            List.take_of_length_le hfits, htake, List.append_assoc]
        · intro next more hfollowing
          have hroom := hnext next more hfollowing
          simp only [List.cons_append, imageAll_cons, List.length_append] at hroom ⊢
          omega
      · have hcut : (format.imageAll (entry :: entries)).take room =
            (format.image entry).take room := by
          rw [imageAll_cons, List.take_append_of_le_length (by omega)]
        refine ⟨[], entry :: entries, (format.image entry).take room, rfl,
          by simpa using hcut, ?_, ?_⟩
        · apply format.head_cut ⟨_, List.take_append_drop _ _⟩
          intro hwhole
          have hlength := congrArg List.length hwhole
          rw [List.length_take] at hlength
          omega
        · rintro next more ⟨rfl, rfl⟩
          simpa using hfits

end FrameFormat

end MiniKV
