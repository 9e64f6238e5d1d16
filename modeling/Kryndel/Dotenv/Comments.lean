import Kryndel.Dotenv.Parse

/-!
# Comments behind quoted values

The closing quote of a value is the last one of its line, and so a comment may not have a quote
of the same kind in it.
-/

namespace Kryndel

open List

namespace Dotenv

open Quoting

/-! ## Lines with quoted values -/

/-- A name that can be given a value. -/
structure Key where
  text : Bytes
  isName : isName text = true

/-- A value in quotes: as it is, or with escapes. -/
inductive Quoted where
  | single (text : Bytes) (plain : singleQuote ∉ text)
  | double (body value : Bytes)
    (literal : unquote (doubleQuote :: (body ++ [doubleQuote])) = some value)

namespace Quoted

/-- The kind of quote. -/
def mark : Quoted → UInt8
  | single _ _ => singleQuote
  | double _ _ _ => doubleQuote

/-- What stands between the quotes. -/
def inner : Quoted → Bytes
  | single text _ => text
  | double body _ _ => body

/-- The value that is meant. -/
def value : Quoted → Bytes
  | single text _ => text
  | double _ value _ => value

def text (q : Quoted) : Bytes := q.mark :: (q.inner ++ [q.mark])

end Quoted

/-- The line `KEY=<value>`. -/
def plainLine (key : Key) (q : Quoted) : Bytes := key.text ++ 61 :: q.text

/-- The line `KEY=<value> # <comment>`. -/
def commentedLine (key : Key) (q : Quoted) (comment : Bytes) : Bytes :=
  plainLine key q ++ (ascii " # " ++ comment)

/-! ## Quotes in a line -/

variable {b : UInt8}

theorem lastIndexByte_none {s : Bytes} (h : b ∉ s) : lastIndexByte b s = none := by
  induction s with
  | nil => rfl
  | cons a s ih =>
    rw [mem_cons, not_or] at h
    rw [lastIndexByte, ih h.2]
    exact if_neg fun heq => h.1 heq.symm

theorem lastIndexByte_append (x : Bytes) {y : Bytes} (h : b ∉ y) :
    lastIndexByte b (x ++ b :: y) = some x.length := by
  induction x with
  | nil =>
    rw [nil_append, lastIndexByte, lastIndexByte_none h]
    exact if_pos rfl
  | cons a x ih =>
    rw [cons_append, lastIndexByte, ih]
    rfl

variable (q : Quoted)

theorem mark_cases : q.mark = singleQuote ∨ q.mark = doubleQuote := by
  cases q with
  | single => exact .inl rfl
  | double => exact .inr rfl

theorem visible_mark : Visible q.mark := by
  rcases mark_cases q with h | h <;> rw [h] <;> exact ⟨by decide, by decide⟩

theorem mark_ne_space : q.mark ≠ 32 := by
  rcases mark_cases q with h | h <;> rw [h] <;> decide

theorem visible_hash : Visible hash := ⟨by decide, by decide⟩

theorem visible_of_isAlphaNum (h : isAlphaNum b = true) :
    Visible b ∧ b ≠ 61 ∧ b ≠ 32 ∧ b ≠ hash := by
  have hrange : (48 ≤ b.toNat ∧ b.toNat ≤ 57) ∨ (65 ≤ b.toNat ∧ b.toNat ≤ 122) := by
    simp only [isAlphaNum, isDigit, isLetter, Bool.or_eq_true, Bool.and_eq_true,
      decide_eq_true_eq, UInt8.le_iff_toNat_le, ← UInt8.toNat_inj, UInt8.reduceToNat] at h
    omega
  refine ⟨⟨?_, ?_⟩, ?_, ?_, ?_⟩
  · rw [UInt8.lt_iff_toNat_lt, show (0x80 : UInt8).toNat = 128 from rfl]
    omega
  · simp only [isSpace, contains_eq_mem, mem_cons, not_mem_nil, or_false,
      Bool.or_eq_false_iff, decide_eq_false_iff_not, Bool.and_eq_false_iff]
    omega
  all_goals
    rintro rfl
    revert hrange
    decide

/-- What is left of a comment when the line is trimmed. -/
def kept (comment : Bytes) : Bytes := trimRight (32 :: comment)

variable {comment : Bytes}

theorem mem_kept {q : Quoted} : q.mark ∈ kept comment ↔ q.mark ∈ comment := by
  constructor
  · intro h
    exact (mem_cons.mp ((trimRight_front _).subset h)).resolve_left (mark_ne_space q)
  · intro h
    obtain ⟨front, back, rfl⟩ := append_of_mem h
    rw [kept, ← cons_append, trimRight_append _ (visible_mark q)]
    simp

theorem kept_append (front back : Bytes) :
    kept (front ++ q.mark :: back) = 32 :: (front ++ q.mark :: trimRight back) := by
  rw [kept, ← cons_append, trimRight_append _ (visible_mark q), cons_append]

/-! ## The key of a line -/

theorem Key.cons (key : Key) : ∃ first rest, key.text = first :: rest ∧
    ∀ b ∈ key.text, Visible b ∧ b ≠ 61 ∧ b ≠ 32 ∧ b ≠ hash := by
  have hname := key.isName
  cases htext : key.text with
  | nil =>
    rw [htext] at hname
    cases hname
  | cons first rest =>
    refine ⟨first, rest, rfl, ?_⟩
    rw [htext, Dotenv.isName, Bool.and_eq_true, all_eq_true] at hname
    intro b hb
    apply visible_of_isAlphaNum
    rcases mem_cons.mp hb with rfl | hb
    · rw [isAlphaNum, hname.1, Bool.or_true]
    · exact hname.2 b hb

theorem indexByte_append {front : Bytes} (h : b ∉ front) (back : Bytes) :
    indexByte b (front ++ b :: back) = some front.length := by
  rw [indexByte]
  induction front with
  | nil => simp [index]
  | cons a front ih =>
    rw [mem_cons, not_or] at h
    rw [cons_append, index, if_neg (by simp [h.1]), ih h.2]
    rfl

theorem trimRight_last (front : Bytes) (hb : Visible b) :
    trimRight (front ++ [b]) = front ++ [b] :=
  trimRight_append front hb []

theorem dotenvLine_eq (getenv : Bytes → Bytes) (values : Values) {raw : Bytes} (key : Key)
    {text : Bytes} (h : Quoting.trimSpace raw = key.text ++ 61 :: text) :
    dotenvLine getenv values raw =
      match dotenvValue (Quoting.trimSpace text) with
      | .error e => .error (.value e)
      | .ok value =>
        .ok (setValue values key.text (expand (reference getenv values) value)) := by
  obtain ⟨first, rest, htext, hall⟩ := key.cons
  have hfirst := hall first (by rw [htext]; exact mem_cons_self)
  have hequals : 61 ∉ key.text := fun hmem => (hall 61 hmem).2.1 rfl
  have hexport : (ascii "export ").isPrefixOf (key.text ++ 61 :: text) = false := by
    -- the word would have a space, and a key has none
    rw [Bool.eq_false_iff]
    intro hprefix
    obtain ⟨more, hmore⟩ := isPrefixOf_iff_prefix.mp hprefix
    have hword : ascii "export " = ascii "export" ++ [32] := by decide
    rw [hword, append_assoc] at hmore
    rcases append_eq_append_iff.mp hmore with ⟨middle, hkey, htail⟩ | ⟨middle, hword', htail⟩
    · cases middle with
      | nil => simp at htail
      | cons b middle =>
        rw [singleton_append, cons_append, List.cons.injEq] at htail
        refine (hall 32 ?_).2.2.1 rfl
        rw [hkey, htail.1]
        simp
    · cases middle with
      | nil => simp at htail
      | cons b middle =>
        rw [cons_append, List.cons.injEq] at htail
        have hmem : (61 : UInt8) ∈ ascii "export" := by
          rw [hword', htail.1]
          simp
        exact absurd hmem (by decide)
  have htrim : Quoting.trimSpace key.text = key.text := by
    obtain ⟨front, last, hlast⟩ := (eq_nil_or_concat key.text).resolve_left (by simp [htext])
    rw [htext, trimSpace_visible hfirst.1, ← htext, hlast, concat_eq_append,
      trimRight_last front (hall last (by simp [hlast])).1]
  have hline : ¬ (decide (key.text ++ 61 :: text = []) ||
      decide ((key.text ++ 61 :: text).head? = some hash)) = true := by
    simp [htext, hfirst.2.2.2]
  have hlength : key.text.length = rest.length + 1 := by rw [htext, length_cons]
  simp only [dotenvLine, h, hexport, if_neg hline, indexByte_append hequals, Bool.false_eq_true,
    if_false, hlength]
  have hdrop : (key.text ++ 61 :: text).drop (key.text.length + 1) = text := by simp
  rw [← hlength, take_left, htrim, key.isName, hdrop]
  rfl

/-! ## Lines with and without comments -/

variable (key : Key)

theorem plainLine_split (q : Quoted) (more : Bytes) :
    plainLine key q ++ more = key.text ++ 61 :: (q.text ++ more) := by
  rw [plainLine, append_assoc, cons_append]

theorem plainLine_cons (q : Quoted) (more : Bytes) :
    ∃ first rest, plainLine key q ++ more = first :: rest ∧ Visible first := by
  obtain ⟨first, rest, htext, hall⟩ := key.cons
  refine ⟨first, rest ++ 61 :: (q.text ++ more), ?_, ?_⟩
  · rw [plainLine_split, htext, cons_append]
  · exact (hall first (by rw [htext]; exact mem_cons_self)).1

theorem trimSpace_plain (q : Quoted) :
    Quoting.trimSpace (plainLine key q) = key.text ++ 61 :: q.text := by
  obtain ⟨first, rest, hline, hfirst⟩ := plainLine_cons key q []
  rw [append_nil] at hline
  have hlast : plainLine key q = (key.text ++ 61 :: q.mark :: q.inner) ++ [q.mark] := by
    simp [plainLine, Quoted.text]
  rw [hline, trimSpace_visible hfirst, ← hline, hlast, trimRight_last _ (visible_mark q)]
  simp [Quoted.text]

theorem trimSpace_commented (q : Quoted) (comment : Bytes) :
    Quoting.trimSpace (commentedLine key q comment) =
      key.text ++ 61 :: (q.text ++ 32 :: hash :: kept comment) := by
  obtain ⟨first, rest, hline, hfirst⟩ := plainLine_cons key q (ascii " # " ++ comment)
  have hhash : plainLine key q ++ (ascii " # " ++ comment) =
      (plainLine key q ++ [32]) ++ hash :: 32 :: comment := by
    rw [append_assoc]
    rfl
  rw [commentedLine, hline, trimSpace_visible hfirst, ← hline, hhash,
    trimRight_append _ visible_hash, ← kept, append_assoc, plainLine_split]
  rfl

theorem trimSpace_text : Quoting.trimSpace q.text = q.text := by
  rw [Quoted.text, trimSpace_visible (visible_mark q), ← cons_append,
    trimRight_last _ (visible_mark q)]

theorem trimSpace_kept (comment : Bytes) :
    Quoting.trimSpace (q.text ++ 32 :: hash :: kept comment) =
      q.text ++ 32 :: hash :: kept comment := by
  have hhash : q.text ++ 32 :: hash :: kept comment =
      q.mark :: ((q.inner ++ [q.mark] ++ [32]) ++ hash :: kept comment) := by
    simp [Quoted.text]
  rw [hhash, trimSpace_visible (visible_mark q), ← cons_append,
    trimRight_append _ visible_hash, kept, trimRight_trimRight]

/-! ## Values with and without comments -/

theorem isComment_trimRight (suffix : Bytes) : isComment (trimRight suffix) = isComment suffix := by
  rw [isComment, trimSpace_trimRight, isComment]

theorem isComment_hash (comment : Bytes) : isComment (32 :: hash :: comment) = true := by
  have htrim : Quoting.trimSpace (32 :: hash :: comment) = hash :: trimRight comment := by
    rw [trimSpace_space (by decide) (by decide), trimSpace_visible visible_hash]
    exact trimRight_append [] visible_hash comment
  simp [isComment, htrim]

theorem dotenvValue_eq (between suffix : Bytes) (h : q.mark ∉ suffix) :
    dotenvValue (q.mark :: (between ++ q.mark :: suffix)) =
      if isComment suffix then
        if q.mark = singleQuote then .ok between
        else
          match unquote (q.mark :: (between ++ [q.mark])) with
          | none => .error .invalidDouble
          | some decoded => .ok decoded
      else if q.mark = singleQuote then .error .textAfterSingle
      else .error .textAfterDouble := by
  have hdrop : (between ++ q.mark :: suffix).drop (between.length + 1) = suffix := by simp
  have htake : (between ++ q.mark :: suffix).take (between.length + 1) =
      between ++ [q.mark] := by
    rw [← singleton_append, ← append_assoc]
    exact take_left' (by simp)
  rw [dotenvValue]
  rcases mark_cases q with hmark | hmark
  · rw [if_pos hmark]
    rw [hmark] at h hdrop ⊢
    rw [lastIndexByte_append between h]
    show (if isComment (List.drop (between.length + 1) (between ++ singleQuote :: suffix)) = true
      then Except.ok (List.take between.length (between ++ singleQuote :: suffix)) else _) = _
    rw [hdrop, take_left, if_pos rfl, if_pos rfl]
  · have hne : q.mark ≠ singleQuote := by
      rw [hmark]
      decide
    rw [if_neg hne, if_pos hmark, if_neg hne, if_neg hne]
    rw [hmark] at h hdrop htake ⊢
    rw [lastIndexByte_append between h]
    show (if isComment (List.drop (between.length + 1) (between ++ doubleQuote :: suffix)) = true
      then (match unquote (doubleQuote ::
        List.take (between.length + 1) (between ++ doubleQuote :: suffix)) with
        | none => _
        | some decoded => Except.ok decoded) else _) = _
    rw [hdrop, htake]

theorem dotenvValue_text : dotenvValue q.text = .ok q.value := by
  rw [Quoted.text, dotenvValue_eq q q.inner [] not_mem_nil]
  cases q with
  | single => rfl
  | double body value literal =>
    have hcomment : isComment [] = true := by decide
    have hne : doubleQuote ≠ singleQuote := by decide
    rw [hcomment, if_pos rfl]
    show (if doubleQuote = singleQuote then _ else
      match unquote (doubleQuote :: (body ++ [doubleQuote])) with
      | none => Except.error ValueError.invalidDouble
      | some decoded => Except.ok decoded) = _
    rw [if_neg hne, literal]
    rfl

theorem dotenvValue_kept {q : Quoted} (h : q.mark ∉ comment) :
    dotenvValue (q.text ++ 32 :: hash :: kept comment) = .ok q.value := by
  have hne : ∀ b : UInt8, b = 32 ∨ b = hash → q.mark ≠ b := by
    rintro b (rfl | rfl) <;> rcases mark_cases q with hmark | hmark <;> rw [hmark] <;> decide
  have hsuffix : q.mark ∉ 32 :: hash :: kept comment := by
    rw [mem_cons, mem_cons, not_or, not_or]
    exact ⟨hne _ (.inl rfl), hne _ (.inr rfl), fun hmem => h (mem_kept.mp hmem)⟩
  have hplain := dotenvValue_text q
  rw [Quoted.text, dotenvValue_eq q q.inner [] not_mem_nil] at hplain
  rw [Quoted.text, cons_append, append_assoc, singleton_append,
    dotenvValue_eq q q.inner _ hsuffix, isComment_hash, ← hplain]
  rfl

theorem dotenvValue_absorbed (front back : Bytes) (h : q.mark ∉ back) :
    dotenvValue (q.text ++ 32 :: hash :: kept (front ++ q.mark :: back)) =
      if isComment back then
        if q.mark = singleQuote then .ok (q.inner ++ ascii "' # " ++ front)
        else .error .invalidDouble
      else if q.mark = singleQuote then .error .textAfterSingle
      else .error .textAfterDouble := by
  have hback : q.mark ∉ trimRight back := fun hmem => h ((trimRight_front back).subset hmem)
  have hsplit : q.text ++ 32 :: hash :: kept (front ++ q.mark :: back) =
      q.mark :: ((q.inner ++ q.mark :: 32 :: hash :: 32 :: front) ++
        q.mark :: trimRight back) := by
    rw [kept_append]
    simp [Quoted.text]
  rw [hsplit, dotenvValue_eq q _ _ hback, isComment_trimRight]
  cases q with
  | single text plain =>
    have hascii : ascii "' # " = [singleQuote, 32, hash, 32] := by decide
    have hinner : text ++ ascii "' # " ++ front =
        text ++ singleQuote :: 32 :: hash :: 32 :: front := by
      rw [hascii, append_assoc]
      rfl
    show (if isComment back = true then
      Except.ok (text ++ singleQuote :: 32 :: hash :: 32 :: front) else _) =
        if isComment back = true then Except.ok (text ++ ascii "' # " ++ front) else _
    rw [hinner]
  | double body value literal =>
    have hne : ¬ doubleQuote = singleQuote := by decide
    have hunquote : unquote (doubleQuote :: ((body ++ doubleQuote :: 32 :: hash :: 32 :: front) ++
        [doubleQuote])) = none := by
      -- the literal ends at the quote that was meant
      have hbody : ∃ v, unquoteFrom doubleQuote (body ++ [doubleQuote]).length
          (body ++ [doubleQuote]) = some (v, []) := by
        unfold unquote at literal
        simp only [doubleQuote] at literal ⊢
        split at literal
        · next v hv => exact ⟨v, hv⟩
        · cases literal
      obtain ⟨v, hv⟩ := hbody
      have hmore := unquoteFrom_append (by decide) (by decide) (by decide) hv
        (32 :: hash :: 32 :: (front ++ [doubleQuote]))
        (m := (body ++ doubleQuote :: 32 :: hash :: 32 :: (front ++ [doubleQuote])).length)
        (by simp)
      unfold unquote
      simp only [doubleQuote, append_assoc, cons_append] at hmore ⊢
      rw [hmore]
    show (if isComment back = true then
      (if doubleQuote = singleQuote then _ else
        match unquote (doubleQuote :: ((body ++ doubleQuote :: 32 :: hash :: 32 :: front) ++
          [doubleQuote])) with
        | none => Except.error ValueError.invalidDouble
        | some decoded => Except.ok decoded)
      else _) = if isComment back = true then (if doubleQuote = singleQuote then _ else _) else _
    rw [if_neg hne, if_neg hne, hunquote]

/-! ## When comments do not matter -/

/-- What stands in front of the last quote of a comment becomes part of the value, which is in
    single quotes, and the variables in it come to the same: a `${` at the end of the value is
    closed by the comment. -/
def Quoted.Absorbs (q : Quoted) (mapping : Bytes → Bytes) (comment : Bytes) : Prop :=
  ∃ front back, q.mark = singleQuote ∧ comment = front ++ singleQuote :: back ∧
    singleQuote ∉ back ∧ isComment back = true ∧
      expand mapping (q.inner ++ ascii "' # " ++ front) = expand mapping q.inner

theorem exists_last (h : b ∈ comment) :
    ∃ front back, comment = front ++ b :: back ∧ b ∉ back := by
  obtain ⟨back, front, hreverse, hback⟩ := eq_append_cons_of_mem (mem_reverse.mpr h)
  refine ⟨front.reverse, back.reverse, ?_, fun hmem => hback (mem_reverse.mp hmem)⟩
  rw [← reverse_reverse comment, hreverse]
  simp

theorem append_cons_inj {front front' back back' : Bytes}
    (h : front ++ b :: back = front' ++ b :: back') (hback : b ∉ back) (hback' : b ∉ back') :
    front = front' ∧ back = back' := by
  have hlength := congrArg (lastIndexByte b) h
  rw [lastIndexByte_append front hback, lastIndexByte_append front' hback',
    Option.some.injEq] at hlength
  obtain ⟨hfront, hrest⟩ := append_inj h hlength
  exact ⟨hfront, (List.cons.inj hrest).2⟩

/-- A line with a comment behind its value gives the variable the value that the line gives it
    without the comment just when the comment has no quote of the same kind in it, or one that
    is absorbed. -/
theorem comment_ignored_iff (getenv : Bytes → Bytes) (values : Values) (key : Key) (q : Quoted)
    (comment : Bytes) :
    dotenvLine getenv values (commentedLine key q comment) =
        dotenvLine getenv values (plainLine key q) ↔
      q.mark ∉ comment ∨ q.Absorbs (reference getenv values) comment := by
  rw [dotenvLine_eq getenv values key (trimSpace_plain key q), trimSpace_text, dotenvValue_text,
    dotenvLine_eq getenv values key (trimSpace_commented key q comment), trimSpace_kept]
  by_cases hmem : q.mark ∈ comment
  · obtain ⟨front, back, rfl, hback⟩ := exists_last hmem
    rw [dotenvValue_absorbed q front back hback]
    have hvalue : ∀ v v' : Bytes, setValue values key.text v = setValue values key.text v' ↔
        v = v' := by
      intro v v'
      simp [setValue]
    have habsorbs : q.Absorbs (reference getenv values) (front ++ q.mark :: back) ↔
        q.mark = singleQuote ∧ isComment back = true ∧
          expand (reference getenv values) (q.inner ++ ascii "' # " ++ front) =
            expand (reference getenv values) q.inner := by
      constructor
      · rintro ⟨front', back', hmark, hsplit, hback', hcomment, hexpand⟩
        rw [← hmark] at hsplit hback'
        obtain ⟨rfl, rfl⟩ := append_cons_inj hsplit hback hback'
        exact ⟨hmark, hcomment, hexpand⟩
      · rintro ⟨hmark, hcomment, hexpand⟩
        exact ⟨front, back, hmark, by rw [hmark], hmark ▸ hback, hcomment, hexpand⟩
    rw [or_iff_right (not_not_intro hmem), habsorbs]
    have hinner : q.mark = singleQuote → q.value = q.inner := by
      cases q with
      | single => exact fun _ => rfl
      | double => exact fun h => absurd h (by decide : doubleQuote ≠ singleQuote)
    by_cases hcomment : isComment back = true
    · by_cases hmark : q.mark = singleQuote
      · rw [if_pos hcomment, if_pos hmark, hinner hmark]
        simp [hvalue, hmark, hcomment]
      · simp [hcomment, hmark]
    · by_cases hmark : q.mark = singleQuote <;> simp [hcomment, hmark]
  · rw [dotenvValue_kept hmem]
    exact ⟨fun _ => .inl hmem, fun _ => rfl⟩

/-- The line `KEY="a" # say "b"` is refused, while `KEY="a"` is not. -/
theorem quotes_in_comment_refused :
    ¬ ∀ (getenv : Bytes → Bytes) (values : Values) (key : Key) (q : Quoted) (comment : Bytes),
      dotenvLine getenv values (commentedLine key q comment) =
        dotenvLine getenv values (plainLine key q) := by
  intro h
  have hline := h (fun _ => []) [] ⟨ascii "KEY", by decide⟩
    (.double (ascii "a") (ascii "a") (by decide)) (ascii "say \"b\"")
  revert hline
  decide +kernel

end Dotenv

end Kryndel
