/-!
# Delimited — telling where a written value ends

Values are written one behind the other. Their texts can be told apart if each of them ends where a
certain character comes: `Delimited write valid stop` says that the text of a valid value, with nothing
or a stop character behind it, determines the value and what is behind it. What is behind may be
anything after that, so texts can be put together:

* `delimited_of_forall_mem` for words, none of whose characters is a stop;
* `Delimited.append` for two texts, if the second one shows where the first one ends;
* `Delimited.writeSequence` for a list, if each text but the first begins with a separator;
* `Delimited.comp` for values that are written as others are, and `Delimited.congr` for other forms of
  the text.
-/

namespace SymbolicPoly

universe u v

variable {α : Type u} {β : Type v}

/-! ## What comes behind a text -/

/-- Nothing, or a stop character and anything behind it. -/
def Ends (stop : Char → Prop) (rest : List Char) : Prop :=
  ∀ c ∈ rest.head?, stop c

section Ends

variable {stop stop' : Char → Prop} {text rest : List Char} {c : Char}

@[simp]
theorem ends_nil : Ends stop [] := by
  simp [Ends]

@[simp]
theorem ends_cons : Ends stop (c :: rest) ↔ stop c := by
  simp [Ends]

theorem Ends.append (htext : Ends stop text) (hrest : Ends stop rest) : Ends stop (text ++ rest) := by
  cases text with
  | nil =>
      exact hrest
  | cons c text =>
      exact ends_cons.2 (ends_cons.1 htext)

theorem Ends.mono (h : Ends stop rest) (hstop : ∀ c, stop c → stop' c) : Ends stop' rest :=
  fun c hc => hstop c (h c hc)

theorem Ends.ne_cons (h : Ends stop rest) (hc : ¬ stop c) (text : List Char) : rest ≠ c :: text := by
  rintro rfl
  exact hc (ends_cons.1 h)

end Ends

/-- Words without stop characters end at the first one. -/
theorem eq_and_eq_of_append_eq {stop : Char → Prop} {word word' rest rest' : List Char}
    (hword : ∀ c ∈ word, ¬ stop c) (hword' : ∀ c ∈ word', ¬ stop c) (hrest : Ends stop rest)
    (hrest' : Ends stop rest') (h : word ++ rest = word' ++ rest') : word = word' ∧ rest = rest' := by
  induction word generalizing word' with
  | nil =>
      cases word' with
      | nil =>
          exact ⟨rfl, h⟩
      | cons c word' =>
          -- The longer word would go on with a stop character.
          exact absurd h (hrest.ne_cons (hword' c List.mem_cons_self) _)
  | cons c word ih =>
      cases word' with
      | nil =>
          exact absurd h.symm (hrest'.ne_cons (hword c List.mem_cons_self) _)
      | cons c' word' =>
          rcases List.cons.inj h with ⟨rfl, htail⟩
          rcases ih (List.forall_mem_cons.1 hword).2 (List.forall_mem_cons.1 hword').2 htail with
            ⟨rfl, hrest⟩
          exact ⟨rfl, hrest⟩

/-! ## Texts of values -/

/-- The text of a valid value determines the value, whatever comes behind it, if that is nothing or
begins with a stop character. -/
structure Delimited (write : α → String) (valid : α → Prop) (stop : Char → Prop) : Prop where
  eq_and_eq : ∀ {a b rest rest'}, valid a → valid b → Ends stop rest → Ends stop rest' →
    (write a).toList ++ rest = (write b).toList ++ rest' → a = b ∧ rest = rest'

section Delimited

variable {write : α → String} {write' : β → String} {valid : α → Prop} {valid' : β → Prop}
  {stop stop' : Char → Prop}

theorem delimited_of_forall_mem (hinj : ∀ {a b}, valid a → valid b → write a = write b → a = b)
    (hchars : ∀ {a}, valid a → ∀ c ∈ (write a).toList, ¬ stop c) : Delimited write valid stop := by
  refine ⟨?_⟩
  intro a b rest rest' ha hb hrest hrest' h
  rcases eq_and_eq_of_append_eq (hchars ha) (hchars hb) hrest hrest' h with ⟨htext, hrest⟩
  exact ⟨hinj ha hb (String.toList_inj.1 htext), hrest⟩

namespace Delimited

/-- Without anything behind it, a text determines its value. -/
theorem eq_of_write_eq (h : Delimited write valid stop) {a b : α} (ha : valid a) (hb : valid b)
    (heq : write a = write b) : a = b :=
  (h.eq_and_eq ha hb ends_nil ends_nil (by rw [heq])).1

theorem mono (h : Delimited write valid stop) (hstop : ∀ c, stop' c → stop c) :
    Delimited write valid stop' := by
  refine ⟨?_⟩
  intro a b rest rest' ha hb hrest hrest' heq
  exact h.eq_and_eq ha hb (hrest.mono hstop) (hrest'.mono hstop) heq

/-- The text may be given in another form, and for fewer values. -/
theorem congr {write₂ : α → String} {valid₂ : α → Prop} (h : Delimited write valid stop)
    (hvalid : ∀ {a}, valid₂ a → valid a) (hwrite : ∀ {a}, valid₂ a → write₂ a = write a) :
    Delimited write₂ valid₂ stop := by
  refine ⟨?_⟩
  intro a b rest rest' ha hb hrest hrest' htext
  rw [hwrite ha, hwrite hb] at htext
  exact h.eq_and_eq (hvalid ha) (hvalid hb) hrest hrest' htext

/-- The same characters in front of every text. -/
theorem behind (h : Delimited write valid stop) (mark : String) :
    Delimited (fun a => mark ++ write a) valid stop := by
  refine ⟨?_⟩
  intro a b rest rest' ha hb hrest hrest' heq
  simp only [String.toList_append, List.append_assoc] at heq
  exact h.eq_and_eq ha hb hrest hrest' (List.append_cancel_left heq)

/-- Values that are written as others are, if none of the others is shared. -/
theorem comp (h : Delimited write valid stop) (f : β → α) (hf : ∀ {b b'}, f b = f b' → b = b') :
    Delimited (fun b => write (f b)) (fun b => valid (f b)) stop := by
  refine ⟨?_⟩
  intro b b' rest rest' hb hb' hrest hrest' heq
  rcases h.eq_and_eq hb hb' hrest hrest' heq with ⟨hsame, hrest⟩
  exact ⟨hf hsame, hrest⟩

theorem append (h : Delimited write valid stop) (h' : Delimited write' valid' stop')
    (hends : ∀ {b rest}, valid' b → Ends stop' rest → Ends stop ((write' b).toList ++ rest)) :
    Delimited (fun t : α × β => write t.1 ++ write' t.2) (fun t => valid t.1 ∧ valid' t.2) stop' := by
  refine ⟨?_⟩
  rintro ⟨a, b⟩ ⟨a', b'⟩ rest rest' ⟨ha, hb⟩ ⟨ha', hb'⟩ hrest hrest' heq
  simp only [String.toList_append, List.append_assoc] at heq
  rcases h.eq_and_eq ha ha' (hends hb hrest) (hends hb' hrest') heq with ⟨rfl, htail⟩
  rcases h'.eq_and_eq hb hb' hrest hrest' htail with ⟨rfl, hrest⟩
  exact ⟨rfl, hrest⟩

end Delimited

end Delimited

/-! ## Lists -/

/-- The texts of the members, the first one in a form of its own. -/
def writeSequence (first next : α → String) : List α → String
  | [] => ""
  | a :: as => first a ++ String.join (as.map next)

/-- Texts joined by a separator are a sequence in which it stands in front of each text but the first. -/
theorem intercalate_map (sep : String) (write : α → String) (as : List α) :
    sep.intercalate (as.map write) = writeSequence write (fun a => sep ++ write a) as := by
  cases as with
  | nil =>
      simp [writeSequence]
  | cons a as =>
      induction as generalizing a with
      | nil =>
          simp [writeSequence]
      | cons b bs ih =>
          rw [List.map_cons, List.map_cons, String.intercalate_cons_cons, ← List.map_cons, ih b]
          refine String.toList_inj.1 ?_
          simp [writeSequence, String.toList_join]

section Lists

variable {first next : α → String} {valid : α → Prop} {stop stop' : Char → Prop} {sep : Char}

theorem toList_join_cons (next : α → String) (a : α) (as : List α) :
    (String.join ((a :: as).map next)).toList =
      (next a).toList ++ (String.join (as.map next)).toList := by
  simp [String.toList_join]

/-- With a separator in front of every text, what comes behind a text begins with one. -/
theorem ends_join (hsep : ∀ a, (next a).toList.head? = some sep) (hstop : stop sep) (as : List α) :
    Ends stop (String.join (as.map next)).toList := by
  cases as with
  | nil =>
      exact ends_nil
  | cons a as =>
      rw [toList_join_cons]
      intro c hc
      have hhead : c = sep := by simpa [hsep a] using hc.symm
      exact hhead ▸ hstop

/-- The texts of a list that goes on do not look like what ends it. -/
theorem ne_toList_join_cons (hsep : ∀ a, (next a).toList.head? = some sep) (hstop : ¬ stop' sep)
    {rest : List Char} (hrest : Ends stop' rest) (a : α) (as : List α) (rest' : List Char) :
    rest ≠ (String.join ((a :: as).map next)).toList ++ rest' := by
  rintro rfl
  exact hstop (hrest sep (by simp [hsep a]))

theorem delimited_join (hnext : Delimited next valid stop)
    (hsep : ∀ a, (next a).toList.head? = some sep) (hstop : stop sep) (hstop' : ¬ stop' sep)
    (hmono : ∀ c, stop' c → stop c) :
    Delimited (fun as : List α => String.join (as.map next)) (fun as => ∀ a ∈ as, valid a) stop' := by
  have hends : ∀ (as : List α) {rest}, Ends stop' rest →
      Ends stop ((String.join (as.map next)).toList ++ rest) :=
    fun as _ hrest => (ends_join hsep hstop as).append (hrest.mono hmono)
  refine ⟨?_⟩
  intro as bs rest rest' has hbs hrest hrest' heq
  -- The separator tells whether the list goes on, and ends the member before it.
  induction as generalizing bs with
  | nil =>
      cases bs with
      | nil =>
          exact ⟨rfl, heq⟩
      | cons b bs =>
          exact absurd heq (ne_toList_join_cons hsep hstop' hrest b bs rest')
  | cons a as ih =>
      cases bs with
      | nil =>
          exact absurd heq.symm (ne_toList_join_cons hsep hstop' hrest' a as rest)
      | cons b bs =>
          rcases List.forall_mem_cons.1 has with ⟨ha, has'⟩
          rcases List.forall_mem_cons.1 hbs with ⟨hb, hbs'⟩
          simp only [toList_join_cons, List.append_assoc] at heq
          rcases hnext.eq_and_eq ha hb (hends as hrest) (hends bs hrest') heq with ⟨rfl, htail⟩
          rcases ih has' hbs' htail with ⟨rfl, hrest⟩
          exact ⟨rfl, hrest⟩

/-- A list can be read from the texts of its members if the separator ends each of them and not the
list. -/
theorem Delimited.writeSequence (hfirst : Delimited first valid stop)
    (hnext : Delimited next valid stop) (hsep : ∀ a, (next a).toList.head? = some sep)
    (hstop : stop sep) (hstop' : ¬ stop' sep) (hmono : ∀ c, stop' c → stop c) :
    Delimited (writeSequence first next) (fun as => as ≠ [] ∧ ∀ a ∈ as, valid a) stop' := by
  have hpair := hfirst.append (delimited_join hnext hsep hstop hstop' hmono) fun {as rest} _ hrest =>
    (ends_join hsep hstop as).append (hrest.mono hmono)
  refine ⟨?_⟩
  rintro (_ | ⟨a, as⟩) (_ | ⟨b, bs⟩) rest rest' ⟨hne, has⟩ ⟨hne', hbs⟩ hrest hrest' heq
  · exact absurd rfl hne
  · exact absurd rfl hne
  · exact absurd rfl hne'
  · have hsame := hpair.eq_and_eq (a := (a, as)) (b := (b, bs)) (List.forall_mem_cons.1 has)
      (List.forall_mem_cons.1 hbs) hrest hrest' heq
    simpa using hsame

end Lists

end SymbolicPoly
