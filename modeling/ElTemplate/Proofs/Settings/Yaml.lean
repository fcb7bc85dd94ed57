import ElTemplate.Command.Run
import ElTemplate.Proofs.Settings.Format

/-!
# Written settings are read back

Through a lawful format, settings are read back from what is written of them. The written document
has the entries of the settings, so it may as well have them in another order, with blank lines and
comments between its lines.
-/

namespace ElTemplate.Settings

open Yaml (Fills IsFiller PlainEntry)

variable {format : Format} {s : Settings} {order : List Key} {lines : List String}

theorem ofYaml_fills (lawful : format.Lawful) (perm : order.Perm Key.all)
    (positive : 0 < s.cacheCapacity) (bound : s.cacheCapacity ≤ maxNumber)
    (bound' : s.concurrency ≤ maxNumber)
    (fills : Fills ((order.map s.entryOf).flatMap PlainEntry.lines) lines) :
    ofYaml format (String.join (lines.map (· ++ "\n"))) = .ok s := by
  have filled : order.map s.entryOf ≠ [] := by
    rw [Ne, List.map_eq_nil_iff]
    rintro rfl
    exact absurd perm.length_eq (by decide)
  have plain : ∀ e ∈ order.map s.entryOf, e.IsPlain :=
    List.forall_mem_map.mpr fun key _ => isPlain_entryOf s key
  have read := lawful.document _ lines filled plain (nodup_keys perm) fills
  have decoded := lawful.decode _ s (tabulates_of_perm perm bound bound')
  have valid : s.validate = .ok s := if_neg (Nat.ne_of_gt positive)
  rw [ofYaml, read, Option.bind_some, decoded]
  dsimp only
  rw [valid]

/-- Through a lawful format, settings are read back from what the command prints of them, and from
its lines with the entries in any order and with blank lines and comments before, between and behind
them. -/
theorem ofYaml_written (host : CommandLine.Host) (lawful : host.format.Lawful) (s : Settings)
    (positive : 0 < s.cacheCapacity) (bound : s.cacheCapacity ≤ maxNumber)
    (bound' : s.concurrency ≤ maxNumber) :
    let printed := CommandLine.Command.config.run host s
    printed.code = 0 ∧ ofYaml host.format printed.output = .ok s ∧
    ∀ (order : List Key) (lines : List String), order.Perm Key.all →
      Fills ((order.map s.entryOf).flatMap PlainEntry.lines) lines →
      ofYaml host.format (String.join (lines.map (· ++ "\n"))) = .ok s := by
  intro printed
  have wrote : printed = ⟨String.join (((Key.all.map s.entryOf).flatMap PlainEntry.lines).map
      (· ++ "\n")), "", 0⟩ := by
    simp only [printed, CommandLine.Command.run, lawful.write s bound bound']
  rw [wrote]
  exact ⟨rfl, ofYaml_fills lawful (.refl Key.all) positive bound bound' (.refl _),
    fun order lines perm => ofYaml_fills lawful perm positive bound bound'⟩

/-- A comment is the first line here, a blank line stands before the first dash and an indented
comment before the second, and the capacity comes last. -/
theorem ofYaml_written_commented :
    Format.yaml.Lawful ∧ 0 < 3 ∧ 3 ≤ maxNumber ∧ 0 ≤ maxNumber ∧
    ofYaml .yaml (String.join (["# features twice", "features:", "", "- varargs", "  #",
      "- varargs", "concurrency: 0", "cache_capacity: 3"].map (· ++ "\n"))) =
      .ok ⟨3, 0, [.varargs, .varargs]⟩ := by
  have first : IsFiller "# features twice".toList :=
    show IsFiller ('#' :: " features twice".toList) from
      Yaml.isFiller_of_ascii (Yaml.isAscii_of_all (by decide))
  have blank : IsFiller "".toList := .blank 0
  have indented : IsFiller "  #".toList :=
    show IsFiller (List.replicate 2 ' ' ++ ['#']) from .comment 2 nofun
  have bounds : 0 < 3 ∧ 3 ≤ maxNumber ∧ 0 ≤ maxNumber := by decide
  obtain ⟨positive, bound, bound'⟩ := bounds
  let host : CommandLine.Host :=
    ⟨String.length, fun _ => none, fun _ => none, CommandLine.understand, .yaml⟩
  refine ⟨Format.yaml_lawful, positive, bound, bound', ?_⟩
  refine (ofYaml_written host Format.yaml_lawful ⟨3, 0, [.varargs, .varargs]⟩ positive bound
    bound').2.2 [.features, .concurrency, .cacheCapacity] _ (by decide) ?_
  exact .filler first <| .line <| .filler blank <| .line <| .filler indented <|
    .line <| .line <| .line .nil

end ElTemplate.Settings
