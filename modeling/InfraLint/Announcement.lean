import InfraLint.Rule

/-!
What the linter says of itself.
-/
namespace InfraLint.Announcement

def version : String := "0.1.0"

/-- The names under which its parts are offered, in order. -/
def offered : List String :=
  ["CodeFix", "CodeReplacement", "ConfigurationError", "DeclaredSymbol", "DepLintConfig",
    "DepLintError", "DependencyInferenceProvider", "Diagnostic", "DiagnosticLevel",
    "InferredDependencyMap", "LinterRule", "ModuleSymbol", "NoUnnecessaryDependsOnRule",
    "RedundantDependsOn", "ResourceDependency", "ResourceSymbol", "RuleConfig", "SemanticModel",
    "SemanticModelError", "SemanticModelPort", "TextSpan", "__version__",
    "find_redundant_depends_on", "get_config", "get_logger", "setup_logging"]

end InfraLint.Announcement
