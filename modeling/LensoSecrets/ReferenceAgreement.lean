import LensoSecrets.ProviderReplies

/-!
# Which references the Providers call malformed

The Keychain, encrypted-file and command Providers agree on every string. The Environment
Provider also refuses what these accept with a byte outside ASCII letters, digits and
`.`, `_`, `-`, `/`.
-/
namespace LensoSecrets.ReferenceAgreement
open CapabilityContract ProviderContract ProviderReplies QueryPrograms ReferenceSyntax

/-- The reply to a reference that cannot be bound at all. -/
def Malformed (reply : Reply) : Prop := reply = .ok (.error .invalidReference)

/-- On any reference, whatever the configurations and the states of the sources. -/
theorem malformed_agree (reference : String)
    (E : EnvironmentProvider.AcceptedConfig) (hE : History EnvironmentProvider.Access.Answer)
    (K : KeychainProvider.AcceptedPlugin) (hK : History KeychainProvider.Access.Answer)
    (F : EncryptedFileProvider.AcceptedPlugin) (hF : History EncryptedFileProvider.Access.Answer)
    (C : CommandProvider.AcceptedConfig) (prepared : Option CommandProvider.PreparedProgram)
    (hC : History CommandProvider.Access.Answer) (t : ℕ) :
    (Malformed (Program.result hK t (K.resolve ⟨reference⟩)) ↔
      Malformed (Program.result hF t (F.resolve ⟨reference⟩))) ∧
    (Malformed (Program.result hF t (F.resolve ⟨reference⟩)) ↔
      Malformed (Program.result hC t (C.resolveAlone prepared ⟨reference⟩))) ∧
    (Malformed (Program.result hE t (E.provider.resolve ⟨reference⟩)) ↔
      Malformed (Program.result hK t (K.resolve ⟨reference⟩)) ∨
        portableBytes reference = false) := by
  have henvironment := (environment_failureModel E hE t reference).invalidReference
  have hkeychain := (keychain_failureModel K hK t reference).invalidReference
  have hfile := (encryptedFile_failureModel F hF t reference).invalidReference
  have hcommand := (command_failureModel C prepared hC t reference).invalidReference
  unfold Malformed
  rw [henvironment, hkeychain, hfile, hcommand]
  have hportable : EnvironmentProvider.validReference reference =
      (KeychainProvider.validReference reference && portableBytes reference) :=
    validPortableReference_eq 256 reference
  refine ⟨Iff.rfl, Iff.rfl, ?_⟩
  rw [hportable, Bool.and_eq_false_iff]

/-- `a b` is malformed to the Environment Provider and can be bound by the Keychain's. -/
theorem space_disagrees :
    ¬ ∀ (reference : String)
      (E : EnvironmentProvider.AcceptedConfig) (hE : History EnvironmentProvider.Access.Answer)
      (K : KeychainProvider.AcceptedPlugin) (hK : History KeychainProvider.Access.Answer) (t : ℕ),
      Malformed (Program.result hE t (E.provider.resolve ⟨reference⟩)) ↔
        Malformed (Program.result hK t (K.resolve ⟨reference⟩)) := by
  intro hagree
  have hspace := hagree "a b" EnvironmentProvider.singleReference (fun _ _ => none)
    KeychainProvider.singleReference (fun _ _ => none) 0
  unfold Malformed at hspace
  rw [(environment_failureModel _ _ _ _).invalidReference,
    (keychain_failureModel _ _ _ _).invalidReference] at hspace
  exact absurd (hspace.mp (by decide)) (by decide)

end LensoSecrets.ReferenceAgreement
