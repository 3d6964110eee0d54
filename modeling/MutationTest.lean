import MutationTest.Verify.Attribution
import MutationTest.Verify.Batch
import MutationTest.Verify.Budget
import MutationTest.Verify.CoverageHtml
import MutationTest.Verify.Deletion
import MutationTest.Verify.Descent
import MutationTest.Verify.DigestAuth
import MutationTest.Verify.FreshReport
import MutationTest.Verify.Generations
import MutationTest.Verify.Histories
import MutationTest.Verify.InStep
import MutationTest.Verify.Inert
import MutationTest.Verify.Layout
import MutationTest.Verify.Leftover
import MutationTest.Verify.OwnCode
import MutationTest.Verify.ReportJson
import MutationTest.Verify.Stillborn
