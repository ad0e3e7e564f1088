import DataCalculus.Json.Printer
import DataCalculus.Json.Reader

/-!
# Compact text is read back

Trees of strings, arrays and objects are written as a text that is scanned into their tokens, and
the tokens are put together as the same tree if its nesting is within the limit; otherwise they are
refused. Numbers, truth values and null stand in no such tree and are left out here.
-/

namespace DataCalculus

set_option autoImplicit false

/-- Entries that come in order are put in one after another at the end. -/
theorem Entries.Ordered.insert_last {α : Type} {before after : Entries α} {key : Name} {value : α}
    (h : Entries.Ordered (before ++ (key, value) :: after)) :
    Entries.insert key value before = before ++ [(key, value)] := by
  induction before with
  | nil => rfl
  | cons e before ih =>
    obtain ⟨he, hrest⟩ := List.pairwise_cons.1 h
    have hlt : e.1 < key := he (key, value) (by simp)
    have hne : key ≠ e.1 := fun heq => String.lt_irrefl key (heq ▸ hlt)
    rw [Entries.insert, if_neg (String.lt_asymm hlt), if_neg hne, ih hrest]
    rfl

namespace Json

/-- Strings, arrays, and objects whose keys are in strictly increasing order. -/
inductive Canonical : Json → Prop where
  | str (s : String) : Canonical (.str s)
  | arr {items : List Json} (parts : ∀ item ∈ items, Canonical item) : Canonical (.arr items)
  | obj {fields : List (String × Json)} (ordered : Entries.Ordered fields)
      (parts : ∀ b ∈ fields, Canonical b.2) : Canonical (.obj fields)

mutual

/-- The tokens of the text of a tree. -/
def tokens : Json → List Token
  | .null => [.null]
  | .bool b => [.bool b]
  | .num n => [.num n]
  | .str s => [.str s]
  | .arr [] => [.openArray, .closeArray]
  | .arr (item :: items) => .openArray :: (item.tokens ++ (tokensItems items ++ [.closeArray]))
  | .obj [] => [.openObject, .closeObject]
  | .obj ((key, value) :: fields) =>
    .openObject :: .str key :: .colon :: (value.tokens ++ (tokensFields fields ++ [.closeObject]))

/-- The tokens of further items of an array, each after its comma. -/
def tokensItems : List Json → List Token
  | [] => []
  | item :: items => .comma :: (item.tokens ++ tokensItems items)

/-- The tokens of further members of an object, each after its comma. -/
def tokensFields : List (String × Json) → List Token
  | [] => []
  | (key, value) :: fields => .comma :: .str key :: .colon :: (value.tokens ++ tokensFields fields)

end

/-! ## Scanning -/

section Scanning

variable {rest : List Char} {ts : List Token}

theorem hexValue?_hexDigit (n : Nat) : Token.hexValue? (hexDigit n) = some (n % 16) := by
  have hall : ∀ m < 16, Token.hexValue? (Nat.digitChar m) = some m := by decide
  exact hall (n % 16) (Nat.mod_lt n (by decide))

/-- A control character is scanned from the code that it is written as. -/
theorem run?_code {c : Char} (h : c.toNat < 0x20) (seen : List Char) :
    Token.run? ⟨.quoted seen, ts⟩
        ('\\' :: 'u' :: '0' :: '0' :: hexDigit (c.toNat / 16) :: hexDigit c.toNat :: rest) =
      Token.run? ⟨.quoted (c :: seen), ts⟩ rest := by
  have hvalue : 16 * (c.toNat / 16 % 16) + c.toNat % 16 = c.toNat := by omega
  have hzero : Token.hexValue? '0' = some 0 := rfl
  have hhigh : Token.isHighSurrogate c.toNat = false := by
    simp only [Token.isHighSurrogate, Bool.and_eq_false_iff, decide_eq_false_iff_not]
    omega
  have hlow : Token.isLowSurrogate c.toNat = false := by
    simp only [Token.isLowSurrogate, Bool.and_eq_false_iff, decide_eq_false_iff_not]
    omega
  have hafter : Token.afterCode? seen none c.toNat = some (.quoted (c :: seen)) := by
    simp [Token.afterCode?, hhigh, hlow]
  simp [Token.run?, Token.step?, hexValue?_hexDigit, hzero, hvalue, hafter]

theorem run?_escaped (c : Char) (seen : List Char) :
    Token.run? ⟨.quoted seen, ts⟩ (escaped c ++ rest) =
      Token.run? ⟨.quoted (c :: seen), ts⟩ rest := by
  unfold escaped
  split
  case h_8 hquote hslash _ _ _ _ _ =>
    by_cases hc : c.toNat < 0x20
    · rw [if_pos hc]
      exact run?_code hc seen
    · have hplain : c ≠ '"' ∧ c ≠ '\\' := ⟨hquote, hslash⟩
      rw [if_neg hc]
      simp [Token.run?, Token.step?, hplain, hc]
  -- The seven characters with an escape of one letter.
  all_goals rfl

theorem run?_writeString (s : String) :
    Token.run? ⟨.between, ts⟩ (writeString s rest) =
      Token.run? ⟨.between, .str s :: ts⟩ rest := by
  have hchars : ∀ cs seen : List Char,
      Token.run? ⟨.quoted seen, ts⟩ (cs.foldr (fun c tail => escaped c ++ tail) ('"' :: rest)) =
        Token.run? ⟨.between, .str (String.ofList (seen.reverse ++ cs)) :: ts⟩ rest := by
    intro cs
    induction cs with
    | nil =>
      intro seen
      rw [List.append_nil]
      rfl
    | cons c cs ih =>
      intro seen
      rw [List.foldr_cons, run?_escaped, ih, List.reverse_cons, List.append_assoc]
      rfl
  have hall := hchars s.toList []
  rw [List.reverse_nil, List.nil_append, String.ofList_toList] at hall
  exact hall

/-- The text of the tree is scanned as its tokens, whatever comes after it. -/
def Scans (j : Json) : Prop :=
  ∀ (rest : List Char) (ts : List Token),
    Token.run? ⟨.between, ts⟩ (j.write rest) =
      Token.run? ⟨.between, j.tokens.reverse ++ ts⟩ rest

theorem run?_writeItems {items : List Json} (h : ∀ item ∈ items, item.Scans) :
    Token.run? ⟨.between, ts⟩ (writeItems items rest) =
      Token.run? ⟨.between, (tokensItems items).reverse ++ ts⟩ rest := by
  induction items generalizing ts with
  | nil => rfl
  | cons item items ih =>
    obtain ⟨hitem, hitems⟩ := List.forall_mem_cons.1 h
    have hcomma : Token.run? ⟨.between, ts⟩ (writeItems (item :: items) rest) =
        Token.run? ⟨.between, .comma :: ts⟩ (item.write (writeItems items rest)) := rfl
    rw [hcomma, hitem, ih hitems, tokensItems]
    simp

theorem run?_writeFields {fields : List (String × Json)} (h : ∀ b ∈ fields, b.2.Scans) :
    Token.run? ⟨.between, ts⟩ (writeFields fields rest) =
      Token.run? ⟨.between, (tokensFields fields).reverse ++ ts⟩ rest := by
  induction fields generalizing ts with
  | nil => rfl
  | cons b fields ih =>
    obtain ⟨key, value⟩ := b
    obtain ⟨hvalue, hfields⟩ := List.forall_mem_cons.1 h
    have hcomma : Token.run? ⟨.between, ts⟩ (writeFields ((key, value) :: fields) rest) =
        Token.run? ⟨.between, .comma :: ts⟩
          (writeString key (':' :: value.write (writeFields fields rest))) := rfl
    have hcolon : Token.run? ⟨.between, .str key :: .comma :: ts⟩
          (':' :: value.write (writeFields fields rest)) =
        Token.run? ⟨.between, .colon :: .str key :: .comma :: ts⟩
          (value.write (writeFields fields rest)) := rfl
    rw [hcomma, run?_writeString, hcolon, hvalue, ih hfields, tokensFields]
    simp

theorem Canonical.scans {j : Json} (h : j.Canonical) : j.Scans := by
  induction h with
  | str s =>
    intro rest ts
    exact run?_writeString s
  | @arr items _ ih =>
    intro rest ts
    cases items with
    | nil => rfl
    | cons item items =>
      obtain ⟨hitem, hitems⟩ := List.forall_mem_cons.1 ih
      have hopen : Token.run? ⟨.between, ts⟩ ((Json.arr (item :: items)).write rest) =
          Token.run? ⟨.between, .openArray :: ts⟩ (item.write (writeItems items (']' :: rest))) :=
        rfl
      rw [hopen, hitem, run?_writeItems hitems, tokens]
      simp only [List.reverse_cons, List.reverse_append, List.append_assoc, List.reverse_nil]
      rfl
  | @obj fields _ _ ih =>
    intro rest ts
    cases fields with
    | nil => rfl
    | cons b fields =>
      obtain ⟨key, value⟩ := b
      obtain ⟨hvalue, hfields⟩ := List.forall_mem_cons.1 ih
      have hopen : Token.run? ⟨.between, ts⟩ ((Json.obj ((key, value) :: fields)).write rest) =
          Token.run? ⟨.between, .openObject :: ts⟩
            (writeString key (':' :: value.write (writeFields fields ('\x7d' :: rest)))) := rfl
      have hcolon : Token.run? ⟨.between, .str key :: .openObject :: ts⟩
            (':' :: value.write (writeFields fields ('\x7d' :: rest))) =
          Token.run? ⟨.between, .colon :: .str key :: .openObject :: ts⟩
            (value.write (writeFields fields ('\x7d' :: rest))) := rfl
      rw [hopen, run?_writeString, hcolon, hvalue, run?_writeFields hfields, tokens]
      simp only [List.reverse_cons, List.reverse_append, List.append_assoc, List.reverse_nil]
      rfl

theorem Canonical.scan?_text {j : Json} (h : j.Canonical) :
    Token.scan? j.text.toList = some j.tokens := by
  have hrun := h.scans [] []
  rw [List.append_nil] at hrun
  rw [text, String.toList_ofList, Token.scan?, hrun]
  show some j.tokens.reverse.reverse = _
  rw [List.reverse_reverse]

end Scanning

/-! ## Putting tokens together -/

namespace Reader

variable {limit : Nat} {stack : List Frame}

/-- The machine goes on if containers are nested at most as deep as the limit says. -/
def within? (limit nesting : Nat) (r : Reader) : Option Reader :=
  if nesting ≤ limit then some r else none

theorem within?_bind {nesting more total : Nat} {r q : Reader} {next : Reader → Option Reader}
    (h : nesting ≤ limit → next r = within? limit more q) (htotal : total = max nesting more) :
    (within? limit nesting r).bind next = within? limit total q := by
  unfold within? at h ⊢
  by_cases hn : nesting ≤ limit
  · rw [if_pos hn, Option.bind_some, h hn]
    by_cases hm : more ≤ limit
    · rw [if_pos hm, if_pos (by omega)]
    · rw [if_neg hm, if_neg (by omega)]
  · rw [if_neg hn, if_neg (by omega), Option.bind_none]

/-- The tokens of the tree are read as the tree inside of any containers, of which there are not
more than the limit says, as long as those of the tree stay within the limit too. -/
def Reads (limit : Nat) (j : Json) : Prop :=
  ∀ stack : List Frame, stack.length ≤ limit →
    run? limit (.value stack) j.tokens = within? limit (stack.length + j.nesting) (.after j stack)

/-- The first item of an array is read as any value inside of the array. -/
theorem run?_firstItem {j : Json} (h : j.Canonical) (more : List Token) :
    run? limit (.firstItem stack) (j.tokens ++ more) =
      run? limit (.value (.array [] :: stack)) (j.tokens ++ more) := by
  cases h with
  | str s => rfl
  | @arr items _ => cases items <;> rfl
  | @obj fields _ _ => cases fields <;> rfl

/-- The rest of an array, after the item `v` that is not yet put to the earlier ones. -/
theorem run?_tokensItems {items : List Json} (h : ∀ item ∈ items, Reads limit item)
    (hroom : stack.length < limit) (v : Json) (done : List Json) :
    run? limit (.after v (.array done :: stack)) (tokensItems items ++ [.closeArray]) =
      within? limit (stack.length + 1 + nestingItems items)
        (.after (.arr ((v :: done).reverse ++ items)) stack) := by
  induction items generalizing v done with
  | nil =>
    have hclose : run? limit (.after v (.array done :: stack)) [.closeArray] =
        some (.after (.arr (v :: done).reverse) stack) := rfl
    rw [nestingItems, within?, if_pos (by omega), List.append_nil]
    exact hclose
  | cons item items ih =>
    obtain ⟨hitem, hitems⟩ := List.forall_mem_cons.1 h
    have hcomma : run? limit (.after v (.array done :: stack))
          (tokensItems (item :: items) ++ [.closeArray]) =
        run? limit (.value (.array (v :: done) :: stack))
          (item.tokens ++ tokensItems items ++ [.closeArray]) := rfl
    have hrest := ih hitems item (v :: done)
    rw [List.reverse_cons, List.append_assoc] at hrest
    rw [hcomma, List.append_assoc, run?_append, hitem (.array (v :: done) :: stack) hroom]
    refine within?_bind (fun _ => hrest) ?_
    rw [nestingItems, List.length_cons]
    omega

/-- The rest of an object, after the member `v` that is not yet put to the earlier ones. -/
theorem run?_tokensFields {fields : List (String × Json)} (h : ∀ b ∈ fields, Reads limit b.2)
    (hroom : stack.length < limit) (key : String) (v : Json) (done : List (String × Json))
    (hordered : Entries.Ordered (done ++ (key, v) :: fields)) :
    run? limit (.after v (.object done key :: stack)) (tokensFields fields ++ [.closeObject]) =
      within? limit (stack.length + 1 + nestingFields fields)
        (.after (.obj (done ++ (key, v) :: fields)) stack) := by
  induction fields generalizing key v done with
  | nil =>
    have hclose : run? limit (.after v (.object done key :: stack)) [.closeObject] =
        some (.after (.obj (Entries.insert key v done)) stack) := rfl
    rw [nestingFields, within?, if_pos (by omega), ← hordered.insert_last]
    exact hclose
  | cons b fields ih =>
    obtain ⟨key', v'⟩ := b
    obtain ⟨hvalue, hfields⟩ : Reads limit v' ∧ ∀ b ∈ fields, Reads limit b.2 :=
      List.forall_mem_cons.1 h
    have hcomma : run? limit (.after v (.object done key :: stack))
          (tokensFields ((key', v') :: fields) ++ [.closeObject]) =
        run? limit (.value (.object (Entries.insert key v done) key' :: stack))
          (v'.tokens ++ tokensFields fields ++ [.closeObject]) := rfl
    have hsplit : done ++ (key, v) :: (key', v') :: fields =
        (done ++ [(key, v)]) ++ (key', v') :: fields := by simp
    have hrest := ih hfields key' v' (done ++ [(key, v)]) (hsplit ▸ hordered)
    rw [hcomma, hordered.insert_last, List.append_assoc, run?_append,
      hvalue (.object (done ++ [(key, v)]) key' :: stack) hroom, hsplit]
    refine within?_bind (fun _ => hrest) ?_
    rw [nestingFields, List.length_cons]
    omega

/-- All of an array that stands where a value may stand. -/
theorem reads_arr {items : List Json} (parts : ∀ item ∈ items, item.Canonical)
    (h : ∀ item ∈ items, Reads limit item) : Reads limit (.arr items) := by
  intro stack hroom
  cases items with
  | nil =>
    have hopen : run? limit (.value stack) (Json.arr []).tokens =
        within? limit (stack.length + 1) (.firstItem stack) >>= fun r =>
          run? limit r [.closeArray] := rfl
    have hclose : run? limit (.firstItem stack) [.closeArray] =
        within? limit 0 (.after (.arr []) stack) := (if_pos (Nat.zero_le limit)).symm
    rw [hopen]
    refine within?_bind (fun _ => hclose) ?_
    rw [nesting, nestingItems]
    omega
  | cons item items =>
    obtain ⟨hitem, hitems⟩ := List.forall_mem_cons.1 h
    have hopen : run? limit (.value stack) (Json.arr (item :: items)).tokens =
        within? limit (stack.length + 1) (.firstItem stack) >>= fun r =>
          run? limit r (item.tokens ++ (tokensItems items ++ [.closeArray])) := rfl
    have hbody : stack.length < limit → run? limit (.firstItem stack)
          (item.tokens ++ (tokensItems items ++ [.closeArray])) =
        within? limit (stack.length + 1 + nestingItems (item :: items))
          (.after (.arr (item :: items)) stack) := by
      intro hl
      rw [run?_firstItem (parts item List.mem_cons_self), run?_append,
        hitem (.array [] :: stack) hl]
      refine within?_bind (fun _ => run?_tokensItems hitems hl item []) ?_
      rw [nestingItems, List.length_cons]
      omega
    rw [hopen]
    refine within?_bind hbody ?_
    rw [nesting]
    omega

/-- All of an object that stands where a value may stand. -/
theorem reads_obj {fields : List (String × Json)} (ordered : Entries.Ordered fields)
    (h : ∀ b ∈ fields, Reads limit b.2) : Reads limit (.obj fields) := by
  intro stack hroom
  cases fields with
  | nil =>
    have hopen : run? limit (.value stack) (Json.obj []).tokens =
        within? limit (stack.length + 1) (.firstKey stack) >>= fun r =>
          run? limit r [.closeObject] := rfl
    have hclose : run? limit (.firstKey stack) [.closeObject] =
        within? limit 0 (.after (.obj []) stack) := (if_pos (Nat.zero_le limit)).symm
    rw [hopen]
    refine within?_bind (fun _ => hclose) ?_
    rw [nesting, nestingFields]
    omega
  | cons b fields =>
    obtain ⟨key, v⟩ := b
    obtain ⟨hvalue, hfields⟩ : Reads limit v ∧ ∀ b ∈ fields, Reads limit b.2 :=
      List.forall_mem_cons.1 h
    have hopen : run? limit (.value stack) (Json.obj ((key, v) :: fields)).tokens =
        within? limit (stack.length + 1) (.firstKey stack) >>= fun r =>
          run? limit r (.str key :: .colon :: (v.tokens ++ (tokensFields fields ++ [.closeObject])))
        := rfl
    have hbody : stack.length < limit → run? limit (.firstKey stack)
          (.str key :: .colon :: (v.tokens ++ (tokensFields fields ++ [.closeObject]))) =
        within? limit (stack.length + 1 + nestingFields ((key, v) :: fields))
          (.after (.obj ((key, v) :: fields)) stack) := by
      intro hl
      have hkey : run? limit (.firstKey stack)
            (.str key :: .colon :: (v.tokens ++ (tokensFields fields ++ [.closeObject]))) =
          run? limit (.value (.object [] key :: stack))
            (v.tokens ++ (tokensFields fields ++ [.closeObject])) := rfl
      rw [hkey, run?_append, hvalue (.object [] key :: stack) hl]
      refine within?_bind (fun _ => run?_tokensFields hfields hl key v [] ordered) ?_
      rw [nestingFields, List.length_cons]
      omega
    rw [hopen]
    refine within?_bind hbody ?_
    rw [nesting]
    omega

end Reader

theorem Canonical.reads {j : Json} (h : j.Canonical) (limit : Nat) : Reader.Reads limit j := by
  induction h with
  | str s =>
    intro stack hroom
    exact (if_pos hroom).symm
  | arr parts ih => exact Reader.reads_arr parts ih
  | obj ordered _ ih => exact Reader.reads_obj ordered ih

/-- The text of a canonical tree is read as the tree exactly if its nesting is within the limit. -/
theorem Canonical.ofTextWithin?_text {j : Json} (h : j.Canonical) (limit : Nat) :
    ofTextWithin? limit j.text = if j.nesting ≤ limit then some j else none := by
  have hread := h.reads limit [] (Nat.zero_le limit)
  rw [ofTextWithin?, h.scan?_text, Option.bind_some, ofTokens?, hread, Reader.within?,
    List.length_nil, Nat.zero_add]
  by_cases hn : j.nesting ≤ limit
  · rw [if_pos hn, if_pos hn]
    rfl
  · rw [if_neg hn, if_neg hn]
    rfl

end Json

end DataCalculus
