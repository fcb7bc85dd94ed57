import ElTemplate.Proofs.Token.Munch
import ElTemplate.Proofs.Token.Text

/-!
# Tokens tile the source

The tokens of a scanner stand one behind the other with nothing but white space between them, and
outside of blocks with nothing at all. They reach to the end of the source or to an error, and from
there on every step gives the same. So a source can be put together again from the spellings of its
tokens and the white space before them.
-/

namespace ElTemplate

open Text
open Scanner (Mode)

namespace Lexeme

theorem ofText_length_le (cs : List Char) : (ofText cs).length ≤ cs.length := by
  rw [ofText]
  split
  · next kind start =>
    rcases delimiter?_eq_some start with ⟨-, rest, rfl⟩ | ⟨-, rest, rfl⟩ <;>
      exact Nat.le_add_left 2 rest.length
  · obtain ⟨n, taken, bounded, -⟩ := textLength_stops false 0 cs
    rw [verbatim, taken, Nat.zero_add]
    exact bounded

theorem ofBlock_length_le {c : Char} {rest : List Char} {l : Lexeme}
    (h : ofBlock c rest = .ok l) : l.length ≤ (c :: rest).length := by
  obtain ⟨slice, f, parted, length, -⟩ := spells_of_ofBlock h
  rw [parted, length, List.length_append]
  exact Nat.le_add_right _ _

theorem ofText_image (cs : List Char) : (ofText cs).image = cs.take (ofText cs).length := by
  rw [ofText]
  split <;> rfl

/-- Outside of blocks something is read as it stands, if anything is ahead. -/
theorem exists_ofText (c : Char) (cs : List Char) : ∃ slice f kind, c :: cs = slice ++ f ∧
    slice ≠ [] ∧ ofText (slice ++ f) = ⟨kind, slice, slice.length⟩ := by
  have image := ofText_image (c :: cs)
  have length := List.length_take_of_le (ofText_length_le (c :: cs))
  refine ⟨(c :: cs).take (ofText (c :: cs)).length, (c :: cs).drop (ofText (c :: cs)).length,
    (ofText (c :: cs)).kind, (List.take_append_drop _ _).symm, ?_, ?_⟩
  · exact List.ne_nil_of_length_pos (length.symm ▸ ofText_pos c cs)
  · rw [List.take_append_drop, ← image]
    rw [← image] at length
    rw [length]

end Lexeme

/-- A token with the characters that spell it and the white space before them. -/
structure Tile where
  gap : List Char
  slice : List Char
  token : Token
deriving DecidableEq, Repr

namespace Tile

/-- The offset behind the token. -/
def stop (tile : Tile) : Nat :=
  tile.token.position + tile.slice.length

def chars (tile : Tile) : List Char :=
  tile.gap ++ tile.slice

/-- The characters of tiles that lie one behind the other. -/
def covered (tiles : List Tile) : List Char :=
  tiles.flatMap chars

@[simp] theorem covered_nil : covered [] = [] := rfl

@[simp] theorem covered_cons (tile : Tile) (tiles : List Tile) :
    covered (tile :: tiles) = tile.gap ++ (tile.slice ++ covered tiles) :=
  List.append_assoc tile.gap tile.slice (covered tiles)

/-- The tile fits in this mode behind so many characters: there is white space before its token
inside of a block only, and the characters of the token spell it. -/
structure Fits (mode : Mode) (start : Nat) (tile : Tile) : Prop where
  position : tile.token.position = start + tile.gap.length
  blank : ∀ c ∈ tile.gap, isBlank c
  tight : mode = .text → tile.gap = []
  some : tile.slice ≠ []
  outside : tile.token.kind ∈ Lexeme.textKinds ↔ mode = .text
  verbatim : tile.token.kind ≠ .string → tile.token.image.toList = tile.slice
  spells : mode = .block →
    Lexical.Spells tile.slice tile.token.kind tile.token.image.toList

/-- The tiles lie one behind the other from there on. -/
def Laid : Mode → Nat → List Tile → Prop
  | _, _, [] => True
  | mode, start, tile :: tiles =>
    Fits mode start tile ∧ Laid (mode.after tile.token.kind) tile.stop tiles

variable {mode : Mode} {start : Nat} {tile : Tile} {tiles : List Tile}

/-- A string stands between two quotes of one sort. -/
theorem Fits.quoted (h : Fits mode start tile) (kind : tile.token.kind = .string) :
    ∃ quote body, (quote = '"' ∨ quote = '\'') ∧ tile.slice = quote :: (body ++ [quote]) := by
  have inside : mode = .block := by
    cases mode with
    | block => rfl
    | text =>
      have outer := h.outside.mpr rfl
      rw [kind] at outer
      exact absurd outer (by decide)
  have spells := h.spells inside
  rw [kind] at spells
  obtain ⟨quote, body, hquote, slice, -⟩ := spells.quoted
  exact ⟨quote, body, hquote, slice⟩

end Tile

namespace Scanner

variable {s s₁ s' : Scanner} {t : Token} {tile : Tile} {tiles : List Tile}

/-- A step that gives the token of a tile and moves on behind it. -/
structure Moves (s : Scanner) (tile : Tile) (s' : Scanner) : Prop where
  next : s.next = (.ok tile.token, s')
  kind : tile.token.kind ≠ .eof
  fits : tile.Fits s.mode s.position
  parted : s.rest = tile.gap ++ (tile.slice ++ s'.rest)
  mode : s'.mode = s.mode.after tile.token.kind
  position : s'.position = tile.stop
  text : s.mode = .text → Lexeme.ofText (tile.slice ++ s'.rest) =
    ⟨tile.token.kind, tile.slice, tile.slice.length⟩
  munch : s.mode = .block → Lexical.Munch (tile.slice ++ s'.rest) tile.slice tile.token.kind
    tile.token.image.toList

/-- A step behind which nothing changes any more: past white space, if inside of a block, it meets
the end of the source or an error. -/
structure Halts (s : Scanner) (gap : List Char) (last : Except ScanError Token) (s' : Scanner) :
    Prop where
  next : s.next = (last, s')
  again : s'.next = (last, s')
  blank : ∀ c ∈ gap, isBlank c
  tight : s.mode = .text → gap = []
  parted : s.rest = gap ++ s'.rest
  position : s'.position = s.position + gap.length
  ended : last = .ok s'.endOfInput ∧ s'.rest = [] ∨ ∃ fault, last = .error ⟨s'.position, fault⟩

theorem moves_text (c : Char) (cs : List Char) (p : Nat) :
    ∃ tile s', Moves ⟨.text, c :: cs, p⟩ tile s' := by
  obtain ⟨slice, f, kind, parted, some, lexed⟩ := Lexeme.exists_ofText c cs
  have outer := Lexeme.ofText_kind_mem (slice ++ f)
  have other := Lexeme.ofText_kind_ne_eof (slice ++ f)
  rw [lexed] at outer other
  rw [parted]
  refine ⟨⟨[], slice, _⟩, _, next_of_ofText some lexed p, other, ?_, rfl, rfl, rfl, fun _ => lexed,
    nofun⟩
  exact ⟨rfl, nofun, fun _ => rfl, some, iff_of_true outer rfl, fun _ => String.toList_ofList,
    nofun⟩

theorem moves_block {c : Char} {cs gap : List Char} {l : Lexeme} (blank : ∀ c ∈ gap, isBlank c)
    (nonblank : isBlank c = false) (lexed : Lexeme.ofBlock c cs = .ok l) (p : Nat) :
    ∃ tile s', Moves ⟨.block, gap ++ c :: cs, p⟩ tile s' := by
  obtain ⟨slice, length, munch⟩ := Lexeme.munch_of_ofBlock lexed
  obtain ⟨rest, parted⟩ := munch.ahead
  have inner : l.kind ∉ Lexeme.textKinds := fun outer =>
    (by decide : ∀ kind ∈ Lexeme.textKinds, kind ∉ Lexeme.blockKinds) _ outer
      (Lexeme.ofBlock_kind_mem lexed)
  have next := (next_blanks blank (c :: cs) p).trans (next_of_ofBlock nonblank lexed _)
  rw [← parted, length, List.drop_left] at next
  rw [← parted] at munch ⊢
  refine ⟨⟨gap, slice, _⟩, _, next, (Lexeme.ofBlock_ok lexed).1, ?_, rfl, rfl, rfl, nofun,
    fun _ => ?_⟩
  · refine ⟨rfl, blank, nofun, munch.spells.ne_nil, iff_of_false inner nofun, fun other => ?_,
      fun _ => ?_⟩
    · exact String.toList_ofList.trans (munch.spells.image_eq other)
    · rw [String.toList_ofList]
      exact munch.spells
  · rw [String.toList_ofList]
    exact munch

theorem halts_of_rest_nil {mode : Mode} {gap : List Char} (blank : ∀ c ∈ gap, isBlank c)
    (tight : mode = .text → gap = []) (p : Nat) :
    Halts ⟨mode, gap, p⟩ gap (.ok ⟨.eof, "", p + gap.length⟩) ⟨mode, [], p + gap.length⟩ := by
  have again := next_of_rest_nil (s := ⟨mode, [], p + gap.length⟩) rfl
  refine ⟨?_, again, blank, tight, (List.append_nil gap).symm, rfl, .inl ⟨rfl, rfl⟩⟩
  cases mode with
  | text =>
    cases tight rfl
    exact again
  | block =>
    have skipped := next_blanks blank [] p
    rw [List.append_nil] at skipped
    exact skipped.trans again

theorem halts_of_ofBlock_error {c : Char} {cs gap : List Char} {fault : ScanFault}
    (blank : ∀ c ∈ gap, isBlank c) (nonblank : isBlank c = false)
    (failed : Lexeme.ofBlock c cs = .error fault) (p : Nat) :
    Halts ⟨.block, gap ++ c :: cs, p⟩ gap (.error ⟨p + gap.length, fault⟩)
      ⟨.block, c :: cs, p + gap.length⟩ := by
  have again := next_of_ofBlock_error nonblank failed (p + gap.length)
  exact ⟨(next_blanks blank (c :: cs) p).trans again, again, blank, nofun, rfl, rfl,
    .inr ⟨fault, rfl⟩⟩

/-- A step moves on behind the next tile, or it is the last one. -/
theorem moves_or_halts (s : Scanner) :
    (∃ tile s', Moves s tile s') ∨ ∃ gap last s', Halts s gap last s' := by
  obtain ⟨mode, rest, p⟩ := s
  cases mode with
  | text =>
    cases rest with
    | nil => exact .inr ⟨[], _, _, halts_of_rest_nil (List.forall_mem_nil _) (fun _ => rfl) p⟩
    | cons c cs => exact .inl (moves_text c cs p)
  | block =>
    have blank : ∀ c ∈ rest.takeWhile isBlank, isBlank c :=
      List.all_eq_true.mp List.all_takeWhile
    have nonblank : ∀ c cs, rest.dropWhile isBlank = c :: cs → isBlank c = false := by
      intro c cs ahead
      have first := List.head?_dropWhile_not isBlank rest
      rwa [ahead] at first
    rw [← List.takeWhile_append_dropWhile (p := isBlank) (l := rest)]
    generalize rest.takeWhile isBlank = gap at blank
    cases ahead : rest.dropWhile isBlank with
    | nil =>
      have tight : Mode.block = .text → gap = [] := nofun
      rw [List.append_nil]
      exact .inr ⟨gap, _, _, halts_of_rest_nil blank tight p⟩
    | cons c cs =>
      cases lexed : Lexeme.ofBlock c cs with
      | ok l => exact .inl (moves_block blank (nonblank c cs ahead) lexed p)
      | error fault =>
        exact .inr ⟨gap, _, _, halts_of_ofBlock_error blank (nonblank c cs ahead) lexed p⟩

/-- The steps give the tokens of the tiles one after the other. -/
inductive Lays : Scanner → List Tile → Scanner → Prop where
  | nil {s : Scanner} : Lays s [] s
  | cons {s s₁ s' : Scanner} {tile : Tile} {tiles : List Tile} (moves : Moves s tile s₁)
      (further : Lays s₁ tiles s') : Lays s (tile :: tiles) s'

/-- Every scanner comes to its last step. -/
theorem exists_lays (s : Scanner) :
    ∃ tiles s₁ gap last s', Lays s tiles s₁ ∧ Halts s₁ gap last s' := by
  induction ahead : s.rest.length using Nat.strong_induction_on generalizing s with
  | h n ih =>
    rcases moves_or_halts s with ⟨tile, s₁, moves⟩ | ⟨gap, last, s', halts⟩
    · have less : s₁.rest.length < n := ahead ▸ next_rest_lt moves.next moves.kind
      obtain ⟨tiles, s₂, gap, last, s', lays, halts⟩ := ih _ less s₁ rfl
      exact ⟨tile :: tiles, s₂, gap, last, s', .cons moves lays, halts⟩
    · exact ⟨[], s, gap, last, s', .nil, halts⟩

/-- No text goes on behind a text. -/
theorem next_ne_text {t' : Token} (first : s.next = (.ok t, s₁)) (second : s₁.next = (.ok t', s'))
    (text : t.kind = .text) : t'.kind ≠ .text := by
  obtain ⟨mode, -, stop⟩ := next_text first text
  obtain ⟨_, rest, p⟩ := s₁
  cases mode
  rcases stop with none | some
  · cases none
    cases second
    exact nofun
  · obtain ⟨kind, start⟩ := Option.isSome_iff_exists.mp some
    rcases Lexeme.delimiter?_eq_some start with ⟨-, rest, rfl⟩ | ⟨-, rest, rfl⟩
    · cases second
      exact nofun
    · cases second
      exact nofun

namespace Lays

theorem laid (h : Lays s tiles s') : Tile.Laid s.mode s.position tiles := by
  induction h with
  | nil => trivial
  | cons moves _ ih => exact ⟨moves.fits, moves.mode ▸ moves.position ▸ ih⟩

theorem parted (h : Lays s tiles s') : s.rest = Tile.covered tiles ++ s'.rest := by
  induction h with
  | nil => rfl
  | cons moves _ ih => simp only [moves.parted, ih, Tile.covered_cons, List.append_assoc]

theorem position (h : Lays s tiles s') :
    s'.position = s.position + (Tile.covered tiles).length := by
  induction h with
  | nil => rfl
  | cons moves _ ih =>
    simp only [ih, moves.position, Tile.stop, moves.fits.position, Tile.covered_cons,
      List.length_append, Nat.add_assoc]

theorem length_le (h : Lays s tiles s') : tiles.length ≤ s.rest.length := by
  induction h with
  | nil => exact Nat.zero_le _
  | cons moves _ ih => exact Nat.lt_of_le_of_lt ih (next_rest_lt moves.next moves.kind)

theorem texts (h : Lays s tiles s') :
    tiles.IsChain fun a b => a.token.kind = .text → b.token.kind ≠ .text := by
  induction h with
  | nil => exact .nil
  | cons first further ih =>
    cases further with
    | nil => exact .singleton _
    | cons second further => exact .cons_cons (next_ne_text first.next second.next) ih

theorem ne_eof (h : Lays s tiles s') : ∀ tile ∈ tiles, tile.token.kind ≠ .eof := by
  induction h with
  | nil => exact List.forall_mem_nil _
  | cons moves _ ih => exact List.forall_mem_cons.mpr ⟨moves.kind, ih⟩

end Lays

/-- The results of so many steps, and where each of them leaves the scanner. -/
def calls : Nat → Scanner → List (Except ScanError Token × Nat)
  | 0, _ => []
  | k + 1, s => (s.next.1, s.next.2.position) :: calls k s.next.2

theorem Lays.calls (h : Lays s tiles s') (k : Nat) :
    s.calls k = (tiles.map fun tile => (.ok tile.token, tile.stop)).take k ++
      s'.calls (k - tiles.length) := by
  induction h generalizing k with
  | nil => rw [List.map_nil, List.take_nil, List.nil_append, List.length_nil, Nat.sub_zero]
  | cons moves _ ih =>
    cases k with
    | zero => simp [Scanner.calls]
    | succ k =>
      rw [Scanner.calls, moves.next, ih, List.map_cons, List.take_succ_cons, List.length_cons,
        Nat.add_sub_add_right, List.cons_append, moves.position]

theorem Halts.calls {gap : List Char} {last : Except ScanError Token} (h : Halts s gap last s')
    (k : Nat) : s.calls k = List.replicate k (last, s'.position) := by
  have again (k : Nat) : s'.calls k = List.replicate k (last, s'.position) := by
    induction k with
    | zero => rfl
    | succ k ih => rw [Scanner.calls, h.again, ih, List.replicate_succ]
  cases k with
  | zero => rfl
  | succ k => rw [Scanner.calls, h.next, again, List.replicate_succ]

theorem Lays.tokens (h : Lays s tiles s') : Emits s (tiles.map Tile.token) s' := by
  induction h with
  | nil => exact .nil
  | cons moves _ ih => exact .cons moves.next ih

/-- The tile of a token between two states of the scanner. -/
def tileOf (s : Scanner) (t : Token) (s' : Scanner) : Tile :=
  ⟨s.rest.take (t.position - s.position),
    (s.rest.drop (t.position - s.position)).take (s'.position - t.position), t⟩

/-- A step that gives a token moves on by its tile. -/
theorem moves_of_next (h : s.next = (.ok t, s')) (kind : t.kind ≠ .eof) :
    Moves s (s.tileOf t s') s' := by
  rcases moves_or_halts s with ⟨⟨gap, slice, token⟩, s₁, moves⟩ | ⟨gap, last, s₁, halts⟩
  · obtain ⟨rfl, rfl⟩ : token = t ∧ s₁ = s' := by
      have same := moves.next.symm.trans h
      exact ⟨Except.ok.inj (congrArg Prod.fst same), congrArg Prod.snd same⟩
    have before : token.position - s.position = gap.length := by
      rw [moves.fits.position]
      exact Nat.add_sub_cancel_left ..
    have within : s₁.position - token.position = slice.length := by
      rw [moves.position]
      exact Nat.add_sub_cancel_left ..
    rw [tileOf, before, within, moves.parted, List.take_left, List.drop_left, List.take_left]
    exact moves
  · obtain rfl : last = .ok t := congrArg Prod.fst (halts.next.symm.trans h)
    rcases halts.ended with ⟨eof, -⟩ | ⟨fault, failed⟩
    · cases eof
      exact absurd rfl kind
    · cases failed

/-- The tokens of a scanner stand one behind the other. -/
theorem pairwise_position_tape (s : Scanner) :
    (∀ t ∈ s.tape.tokens, s.position ≤ t.position) ∧
      s.tape.tokens.Pairwise fun first later => first.position < later.position := by
  induction s using tape.induct with
  | case1 s e s' next =>
    rw [tape_of_error next]
    exact ⟨List.forall_mem_nil _, .nil⟩
  | case2 s t s' next kind =>
    rw [tape_of_eof next kind]
    exact ⟨List.forall_mem_nil _, .nil⟩
  | case3 s t s' next kind ih =>
    have moves := moves_of_next next kind
    have here := moves.fits.position
    have some := List.length_pos_iff.mpr moves.fits.some
    have after := moves.position
    simp only [Tile.stop, tileOf] at here some after
    have behind (u : Token) (member : u ∈ s'.tape.tokens) : t.position < u.position := by
      have := ih.1 u member
      omega
    rw [tape_of_token next kind]
    refine ⟨List.forall_mem_cons.mpr ⟨by omega, fun u member => ?_⟩,
      List.pairwise_cons.mpr ⟨behind, ih.2⟩⟩
    have := behind u member
    omega

/-- The tiles of so many steps, if each of them gives a token. -/
def tiles? : Nat → Scanner → Option (List Tile × Scanner)
  | 0, s => some ([], s)
  | steps + 1, s =>
    match s.next with
    | (.error _, _) => none
    | (.ok t, s') =>
      if t.kind = .eof then none
      else (tiles? steps s').map fun (tiles, last) => (s.tileOf t s' :: tiles, last)

/-- Tiles are found by running the scanner. -/
theorem lays_of_steps (steps : Nat) (h : s.tiles? steps = some (tiles, s')) : Lays s tiles s' := by
  induction steps generalizing s tiles with
  | zero =>
    cases h
    exact .nil
  | succ steps ih =>
    rw [tiles?] at h
    split at h
    · cases h
    · next next =>
      split at h
      · cases h
      · next kind =>
        obtain ⟨⟨more, last⟩, found, same⟩ := Option.map_eq_some_iff.mp h
        cases same
        exact .cons (moves_of_next next kind) (ih found)

end Scanner

namespace Tile

variable {mode : Mode} {start : Nat} {tile : Tile} {tiles before behind : List Tile}

theorem Laid.fits (h : Laid mode start tiles) (mem : tile ∈ tiles) :
    ∃ mode start, Fits mode start tile := by
  induction tiles generalizing mode start with
  | nil => cases mem
  | cons first tiles ih =>
    rcases List.mem_cons.mp mem with rfl | later
    · exact ⟨mode, start, h.1⟩
    · exact ih h.2 later

/-- A token stands behind all the characters of the tiles before it. -/
theorem Laid.position (h : Laid mode start (before ++ tile :: behind)) :
    tile.token.position = start + (covered before ++ tile.gap).length := by
  induction before generalizing mode start with
  | nil => exact h.1.position
  | cons first before ih =>
    rw [ih h.2, stop, h.1.position]
    simp only [covered_cons, List.length_append]
    omega

/-- The spelling of a token is found where the token stands. -/
theorem Laid.extract (h : Laid mode 0 tiles) (mem : tile ∈ tiles) (rest : List Char) :
    tile.stop ≤ (covered tiles ++ rest).length ∧
      (covered tiles ++ rest).extract tile.token.position tile.stop = tile.slice := by
  obtain ⟨before, behind, rfl⟩ := List.append_of_mem mem
  have position := h.position
  rw [Nat.zero_add] at position
  have whole : covered (before ++ tile :: behind) ++ rest =
      (covered before ++ tile.gap) ++ (tile.slice ++ (covered behind ++ rest)) := by
    simp [covered, chars]
  rw [whole, stop, position]
  constructor
  · simp only [List.length_append]
    omega
  · rw [List.extract_eq_take_drop, List.drop_left, Nat.add_sub_cancel_left, List.take_left]

end Tile

/-- The tiles of a source up to an offset, where its last token or an error stands: each token is
found in the source, they lie one behind the other, and together with white space they are all of
the source before that offset. -/
structure Tiling (source : List Char) (tiles : List Tile) (last : Except ScanError Token)
    (stop : Nat) : Prop where
  laid : Tile.Laid .text 0 tiles
  few : tiles.length ≤ source.length
  kind : ∀ tile ∈ tiles, tile.token.kind ≠ .eof
  within : ∀ tile ∈ tiles, tile.token.position < tile.stop ∧ tile.stop ≤ source.length
  slice : ∀ tile ∈ tiles, source.extract tile.token.position tile.stop = tile.slice
  image : ∀ tile ∈ tiles, tile.token.kind ≠ .string →
    tile.token.image.toList = source.extract tile.token.position tile.stop
  quoted : ∀ tile ∈ tiles, tile.token.kind = .string → ∃ quote body,
    (quote = '"' ∨ quote = '\'') ∧
      source.extract tile.token.position tile.stop = quote :: (body ++ [quote])
  texts : tiles.IsChain fun a b => a.token.kind = .text → b.token.kind ≠ .text
  ended : ∃ gap rest, source = Tile.covered tiles ++ gap ++ rest ∧ (∀ c ∈ gap, isBlank c) ∧
    stop = (Tile.covered tiles ++ gap).length ∧
      (last = .ok ⟨.eof, "", stop⟩ ∧ rest = [] ∨ ∃ fault, last = .error ⟨stop, fault⟩)

namespace Scanner

theorem Lays.tiling {source : List Char} {tiles : List Tile} {s s' : Scanner} {gap : List Char}
    {last : Except ScanError Token} (h : Lays (ofChars source) tiles s)
    (halts : Halts s gap last s') : Tiling source tiles last s'.position := by
  have whole : source = Tile.covered tiles ++ s.rest := h.parted
  have found (tile : Tile) (mem : tile ∈ tiles) : tile.stop ≤ source.length ∧
      source.extract tile.token.position tile.stop = tile.slice :=
    whole ▸ Tile.Laid.extract h.laid mem s.rest
  constructor
  case laid => exact h.laid
  case few => exact h.length_le
  case kind => exact h.ne_eof
  case within =>
    intro tile mem
    obtain ⟨mode, start, fits⟩ := h.laid.fits mem
    have some := List.length_pos_iff.mpr fits.some
    refine ⟨?_, (found tile mem).1⟩
    rw [Tile.stop]
    omega
  case slice => exact fun tile mem => (found tile mem).2
  case image =>
    intro tile mem other
    obtain ⟨mode, start, fits⟩ := h.laid.fits mem
    rw [(found tile mem).2, fits.verbatim other]
  case quoted =>
    intro tile mem string
    obtain ⟨mode, start, fits⟩ := h.laid.fits mem
    obtain ⟨quote, body, hquote, slice⟩ := fits.quoted string
    exact ⟨quote, body, hquote, (found tile mem).2.trans slice⟩
  case texts => exact h.texts
  case ended =>
    have stop : s'.position = (Tile.covered tiles ++ gap).length := by
      rw [halts.position, h.position, List.length_append]
      exact congrArg (· + gap.length) (Nat.zero_add _)
    refine ⟨gap, s'.rest, ?_, halts.blank, stop, halts.ended.imp_left ?_⟩
    · rw [List.append_assoc, ← halts.parted, ← whole]
    · rintro ⟨rfl, none⟩
      exact ⟨rfl, none⟩

/-- The calls on one scanner give the tokens that tile the source, each with the offset behind it,
and then the end of the source or an error over and over, always at the same place. -/
theorem exists_tiling (source : List Char) : ∃ tiles last stop, Tiling source tiles last stop ∧
    ∀ k, (ofChars source).calls k = (tiles.map fun tile => (.ok tile.token, tile.stop)).take k ++
      List.replicate (k - tiles.length) (last, stop) := by
  obtain ⟨tiles, s, gap, last, s', lays, halts⟩ := exists_lays (ofChars source)
  refine ⟨tiles, last, s'.position, lays.tiling halts, fun k => ?_⟩
  rw [lays.calls, halts.calls]

end Scanner

end ElTemplate
