import InfraLint.Announcement
import InfraLint.Proofs.AnalysisHistory
import InfraLint.Proofs.BindingHistory
import InfraLint.Proofs.BuiltNames
import InfraLint.Proofs.Consultations
import InfraLint.Proofs.DocumentOrder
import InfraLint.Proofs.DraftedFindings
import InfraLint.Proofs.DraftedSpans
import InfraLint.Proofs.Hiding
import InfraLint.Proofs.JsonMembers
import InfraLint.Proofs.LogHistory
import InfraLint.Proofs.NestedReferences
import InfraLint.Proofs.Noninterference
import InfraLint.Proofs.Obstacles
import InfraLint.Proofs.OwnMembers
import InfraLint.Proofs.Parts
import InfraLint.Proofs.Placement
import InfraLint.Proofs.Questions
import InfraLint.Proofs.Removal
import InfraLint.Proofs.Sessions
import InfraLint.Proofs.SettingsHistory
import InfraLint.Proofs.TargetSets
import InfraLint.Proofs.Templates
import InfraLint.Proofs.VisitingOrder
import InfraLint.Proofs.WrappedFindings
import InfraLint.Proofs.WrittenEvents
import InfraLint.Session
import InfraLint.Syntax.Traversal
