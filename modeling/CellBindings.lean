import CellBindings.Main
import CellBindings.Snippet
import CellBindings.Tree.Cursor
import CellBindings.Proofs.NameTokens
import CellBindings.Proofs.TruthfulAnalysis
import CellBindings.Proofs.LosslessTokens
import CellBindings.Proofs.ReadsWithoutScopes
import CellBindings.Proofs.ConfinedNames
import CellBindings.Proofs.IndependentStatements
import CellBindings.Proofs.ShapedRules
import CellBindings.Proofs.ClassifiedOnce
import CellBindings.Proofs.MentionedNames
import CellBindings.Proofs.RuleAnswers
import CellBindings.Proofs.OpenedConstructs
import CellBindings.Proofs.ParserSeams
import CellBindings.Proofs.SteadyArguments
import CellBindings.Proofs.CarriedBlocks
import CellBindings.Proofs.SteadyConstructs
import CellBindings.Proofs.LineLocations
import CellBindings.Proofs.NotebookPositions
import CellBindings.Proofs.Quotations
import CellBindings.Proofs.ContainedFailures
import CellBindings.Proofs.LexemeEnds
import CellBindings.Proofs.ScannerSeams
import CellBindings.Proofs.LineContinuations
import CellBindings.Proofs.PendingColons
import CellBindings.Proofs.SteadyRules
import CellBindings.Proofs.KeptStatements
import CellBindings.Proofs.WrittenNotebooks
import CellBindings.Proofs.TokenEnclosures
import CellBindings.Proofs.NestedStrings
import CellBindings.Proofs.RecoveredTokens
import CellBindings.Proofs.LineLocality
import CellBindings.Proofs.DeclaredTargets
import CellBindings.Proofs.SettledRules
import CellBindings.Proofs.AbsorbedNames
import CellBindings.Proofs.MissingSlices
import CellBindings.Proofs.CellSlices
import CellBindings.Proofs.FormulaTrees
import CellBindings.Proofs.AcceptedNotebooks
import CellBindings.Proofs.ContextualWords
import CellBindings.Proofs.ScopeHistories
import CellBindings.Proofs.LineSearch
import CellBindings.Proofs.LineOffsets
import CellBindings.Proofs.StoredTrees
import CellBindings.Proofs.CursorWalks
import CellBindings.Proofs.ReadableOutlines
import CellBindings.Proofs.CollectedNotebooks
import CellBindings.Proofs.SnippetWindows
