import ElTemplate.Proofs.Token.Canonical

/-!
# Text between blocks

A text goes on to the next delimiter or to the end of the source. Which of them stands behind it is
all that it depends on, so it can be scanned again from its own characters wherever the same
delimiter follows.
-/

namespace ElTemplate

namespace Lexeme

variable {f f' raw cs : List Char} {kind : Token.Kind}

/-- Two characters decide whether a delimiter is ahead. -/
theorem delimiter?_congr (same : f.take 2 = f'.take 2) : delimiter? f = delimiter? f' := by
  have two : ∀ cs, delimiter? cs = delimiter? (cs.take 2) := by
    intro cs
    rcases cs with _ | ⟨a, _ | ⟨b, rest⟩⟩
    · rfl
    · rfl
    · simp only [List.take_succ_cons, List.take_zero]
      unfold delimiter?
      split
      · next h =>
        cases h
        rfl
      · next h =>
        cases h
        rfl
      · split <;> simp_all
  rw [two f, two f', same]

theorem take_append_congr (raw : List Char) (same : f.take 2 = f'.take 2) :
    (raw ++ f).take 2 = (raw ++ f').take 2 := by
  have one : f.take 1 = f'.take 1 := by
    simpa [List.take_take] using congrArg (List.take 1) same
  rcases raw with _ | ⟨a, _ | ⟨b, rest⟩⟩
  · exact same
  · simpa using one
  · rfl

/-- How far a text goes depends on two characters behind it. -/
theorem textLength_congr (same : f.take 2 = f'.take 2) {escaped : Bool} {length : Nat}
    (h : textLength escaped length (raw ++ f) = length + raw.length) :
    textLength escaped length (raw ++ f') = length + raw.length := by
  induction raw generalizing escaped length with
  | nil =>
    have ends := delimiter?_congr same
    cases f with
    | nil =>
      cases f' with
      | nil => rfl
      | cons c cs => cases same
    | cons c cs =>
      cases f' with
      | nil => cases same
      | cons c' cs' =>
        obtain rfl : c = c' := (List.cons.inj same).1
        simp only [List.nil_append, List.length_nil, Nat.add_zero, textLength] at h ⊢
        rw [← ends]
        split at h
        · have := le_textLength (!escaped) (length + 1) cs
          omega
        · split at h
          · next plain stop => rw [if_neg plain, if_pos stop]
          · have := le_textLength false (length + 1) cs
            omega
  | cons c raw ih =>
    have ends := delimiter?_congr (take_append_congr (c :: raw) same)
    simp only [List.cons_append, List.length_cons, textLength] at h ends ⊢
    rw [← ends]
    split at h
    · next slash =>
      rw [if_pos slash]
      have longer := @ih (!escaped) (length + 1) (by omega)
      omega
    · split at h
      · omega
      · next plain more =>
        rw [if_neg plain, if_neg more]
        have longer := @ih false (length + 1) (by omega)
        omega

/-- A text goes on to the end or to a delimiter. -/
theorem textLength_stops (escaped : Bool) (length : Nat) (cs : List Char) :
    ∃ n, textLength escaped length cs = length + n ∧ n ≤ cs.length ∧
      (cs.drop n = [] ∨ (delimiter? (cs.drop n)).isSome) := by
  fun_induction textLength escaped length cs with
  | case1 => exact ⟨0, rfl, Nat.le_refl 0, .inl rfl⟩
  | case2 escaped length rest ih =>
    obtain ⟨n, taken, bounded, stop⟩ := ih
    exact ⟨n + 1, by omega, Nat.succ_le_succ bounded, stop⟩
  | case3 escaped length c rest slash stop =>
    exact ⟨0, rfl, Nat.zero_le _, .inr (Bool.and_eq_true_iff.mp stop).1⟩
  | case4 escaped length c rest slash more ih =>
    obtain ⟨n, taken, bounded, stop⟩ := ih
    exact ⟨n + 1, by omega, Nat.succ_le_succ bounded, stop⟩

/-- The characters are scanned as one text before `f`. -/
def Stands (raw f : List Char) : Prop :=
  raw ≠ [] ∧ ofText (raw ++ f) = ⟨.text, raw, raw.length⟩

theorem Stands.congr (h : Stands raw f) (same : f.take 2 = f'.take 2) : Stands raw f' := by
  obtain ⟨some, lexed⟩ := h
  refine ⟨some, ?_⟩
  have ends := delimiter?_congr (take_append_congr raw same)
  rw [ofText] at lexed ⊢
  rw [← ends]
  cases start : delimiter? (raw ++ f) with
  | some kind =>
    rw [start] at lexed
    rcases delimiter?_eq_some start with ⟨rfl, -⟩ | ⟨rfl, -⟩ <;> cases congrArg Lexeme.kind lexed
  | none =>
    rw [start] at lexed
    have taken : textLength false 0 (raw ++ f) = 0 + raw.length := by
      rw [Nat.zero_add]
      exact congrArg Lexeme.length lexed
    have again := textLength_congr same taken
    rw [Nat.zero_add] at again
    simp only [verbatim, again, List.take_left]

/-- What is scanned as a text stands before what is behind it: the end or a delimiter. -/
theorem stands_of_ofText (some : cs ≠ []) (htext : (ofText cs).kind = .text) :
    ∃ raw f, cs = raw ++ f ∧ ofText cs = ⟨.text, raw, raw.length⟩ ∧ Stands raw f ∧
      (f = [] ∨ (delimiter? f).isSome) := by
  obtain ⟨n, taken, bounded, stop⟩ := textLength_stops false 0 cs
  rw [Nat.zero_add] at taken
  have parted : cs.take n ++ cs.drop n = cs := List.take_append_drop n cs
  have lexed : ofText cs = ⟨.text, cs.take n, (cs.take n).length⟩ := by
    rw [List.length_take_of_le bounded]
    cases start : delimiter? cs with
    | some kind =>
      rw [ofText, start] at htext
      rcases delimiter?_eq_some start with ⟨rfl, -⟩ | ⟨rfl, -⟩ <;> cases htext
    | none => rw [ofText, start, taken, verbatim]
  have positive : cs.take n ≠ [] := by
    intro none
    cases cs with
    | nil => exact some rfl
    | cons c rest =>
      have long := ofText_pos c rest
      rw [lexed, none] at long
      exact Nat.lt_irrefl 0 long
  refine ⟨cs.take n, cs.drop n, parted.symm, lexed, ⟨positive, ?_⟩, stop⟩
  rw [parted]
  exact lexed

/-- There is no text inside blocks. -/
theorem ofBlock_ne_text {c : Char} {rest : List Char} {l : Lexeme}
    (h : ofBlock c rest = .ok l) : l.kind ≠ .text :=
  ofBlock_kind_ne h (by decide)

end Lexeme

namespace Token

/-- The characters that the tokens begin with, if they begin with a block. -/
def opening : List Token → List Char
  | [] => []
  | t :: _ =>
    match t.kind with
    | .startDynamic => ['$', '\x7b']
    | .startDeferred => ['#', '\x7b']
    | _ => []

/-- Every text can be scanned again before the block or the end that stands behind it. -/
def TextsStand : List Token → Prop
  | [] => True
  | t :: rest =>
    (t.kind = .text → Lexeme.Stands t.image.toList (opening rest)) ∧ TextsStand rest

theorem TextsStand.of_append {ts us : List Token} (h : TextsStand (ts ++ us)) : TextsStand us := by
  induction ts with
  | nil => exact h
  | cons t ts ih => exact ih h.2

theorem TextsStand.stands {ts : List Token} (h : TextsStand ts) :
    ∀ t ∈ ts, t.kind = .text → ∃ f, Lexeme.Stands t.image.toList f := by
  induction ts with
  | nil => exact nofun
  | cons t ts ih => exact List.forall_mem_cons.mpr ⟨fun text => ⟨_, h.1 text⟩, ih h.2⟩

theorem textsStand_of_ne {ts : List Token} (h : ∀ t ∈ ts, t.kind ≠ .text) : TextsStand ts := by
  induction ts with
  | nil => trivial
  | cons t ts ih =>
    obtain ⟨other, rest⟩ := List.forall_mem_cons.mp h
    exact ⟨fun text => absurd text other, ih rest⟩

end Token

namespace Scanner

variable {s s' : Scanner} {t : Token} {f : List Char}

/-- Behind a text the scanner stands before a block or at the end. -/
theorem next_text (h : s.next = (.ok t, s')) (htext : t.kind = .text) :
    s'.mode = .text ∧ Lexeme.Stands t.image.toList s'.rest ∧
      (s'.rest = [] ∨ (Lexeme.delimiter? s'.rest).isSome) := by
  obtain ⟨mode, rest, position⟩ := s
  cases mode with
  | text =>
    cases rest with
    | nil =>
      cases h
      cases htext
    | cons c cs =>
      have kind : (Lexeme.ofText (c :: cs)).kind = .text := by
        cases h
        exact htext
      obtain ⟨raw, f, parted, lexed, stands, stop⟩ :=
        Lexeme.stands_of_ofText (List.cons_ne_nil c cs) kind
      have behind : (c :: cs).drop raw.length = f := by rw [parted, List.drop_left]
      simp only [next, accept, lexed, behind] at h
      cases h
      rw [String.toList_ofList]
      exact ⟨rfl, stands, stop⟩
  | block =>
    simp only [next] at h
    split at h
    · cases h
      cases htext
    · split at h
      · next lexed =>
        cases h
        exact absurd htext (Lexeme.ofBlock_ne_text lexed)
      · cases h

theorem opening_tape (mode : s.mode = .text)
    (stop : s.rest = [] ∨ (Lexeme.delimiter? s.rest).isSome) :
    Token.opening s.tape.tokens = s.rest.take 2 := by
  obtain ⟨_, rest, position⟩ := s
  cases mode
  rcases stop with ended | start
  · cases ended
    rw [tape_of_eof (next_of_rest_nil rfl) rfl]
    rfl
  · obtain ⟨kind, start⟩ := Option.isSome_iff_exists.mp start
    rcases Lexeme.delimiter?_eq_some start with ⟨rfl, rest, rfl⟩ | ⟨rfl, rest, rfl⟩
    · have first : next ⟨.text, '$' :: '\x7b' :: rest, position⟩ =
          (.ok ⟨.startDynamic, "$\x7b", position⟩, ⟨.block, rest, position + 2⟩) := rfl
      rw [tape_of_token first nofun]
      rfl
    · have first : next ⟨.text, '#' :: '\x7b' :: rest, position⟩ =
          (.ok ⟨.startDeferred, "#\x7b", position⟩, ⟨.block, rest, position + 2⟩) := rfl
      rw [tape_of_token first nofun]
      rfl

theorem textsStand_tape (s : Scanner) : Token.TextsStand s.tape.tokens := by
  induction s using tape.induct with
  | case1 s e s' next =>
    rw [tape_of_error next]
    trivial
  | case2 s t s' next kind =>
    rw [tape_of_eof next kind]
    trivial
  | case3 s t s' next kind ih =>
    rw [tape_of_token next kind]
    refine ⟨fun htext => ?_, ih⟩
    obtain ⟨mode, stands, stop⟩ := next_text next htext
    rw [opening_tape mode stop]
    apply stands.congr
    rw [List.take_take]
    rfl

namespace Scans

/-- A text is scanned again where it stands. -/
theorem text (htext : t.kind = .text) (stands : Lexeme.Stands t.image.toList f) :
    Scans True .text t.image.toList [t] .text f := by
  obtain ⟨some, lexed⟩ := stands
  refine ⟨?_, fun h => absurd trivial h⟩
  intro _ p
  have alike : t.Alike ⟨.text, String.ofList t.image.toList, p⟩ := by
    refine ⟨htext, fun _ => (String.ofList_toList).symm, ?_⟩
    simp only [Literal.ofToken?, htext]
  exact ⟨[⟨.text, String.ofList t.image.toList, p⟩], p + t.image.toList.length,
    .cons (next_of_ofText some lexed p) .nil,
    List.forall_mem_singleton.mpr Token.Kind.noConfusion, .cons alike .nil⟩

/-- A delimiter opens its block again. -/
theorem start {deferred : Bool}
    (hkind : t.kind = if deferred then .startDeferred else .startDynamic) :
    Scans True .text [if deferred then '#' else '$', '\x7b'] [t] .block f := by
  refine ⟨?_, fun h => absurd trivial h⟩
  intro _ p
  cases deferred with
  | false =>
    refine ⟨[⟨.startDynamic, "$\x7b", p⟩], p + 2, .cons rfl .nil,
      List.forall_mem_singleton.mpr nofun, .cons (.of_kind hkind ?_) .nil⟩
    rw [hkind]
    decide
  | true =>
    refine ⟨[⟨.startDeferred, "#\x7b", p⟩], p + 2, .cons rfl .nil,
      List.forall_mem_singleton.mpr nofun, .cons (.of_kind hkind ?_) .nil⟩
    rw [hkind]
    decide

end Scans

end Scanner

end ElTemplate
